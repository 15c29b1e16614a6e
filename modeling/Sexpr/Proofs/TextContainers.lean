/-
Lists and dictionaries of texts that are written and read again.

* `Decoders.decode_texts_iff`, `Decoders.decode_entries` — what is decoded into texts;
* `Decoders.exists_print_texts`, `Decoders.exists_print_entries` — how they are written;
* `Decoders.read_print_texts` — the texts that survive.
-/
import Sexpr.Proofs.Editing
import Sexpr.Proofs.RoundTrip
import Sexpr.Proofs.TextReading

namespace Sexpr

/-! ### Printing -/

/-- A value that is one expression without spans is printed as that expression is formatted. -/
theorem Value.print_eq_format {rs : Records} {o : PrintOptions} {l : Layout}
    (hl : o.layout = .ok l) {v : Value} {e : Expr}
    (hdoc : v.toDocument rs o.encode = .ok ⟨[e], none⟩) (hdrop : e.dropSpans = e)
    (hbare : e.hasBare = false) :
    v.print rs o = (e.format l l.pretty 0).mapError Failure.print := by
  rw [Value.print, hl, hdoc]
  show (Document.print l o.encode.keepSpans ⟨[e], none⟩).mapError Failure.print = _
  congr 1
  unfold Document.print
  split_ifs
  · show (e.render l 0 >>= _) = _
    rw [Expr.render_plain hdrop hbare]
    cases e.format l l.pretty 0 with
    | error f => rfl
    | ok text =>
      show Except.ok ("" ++ text) = _
      rw [String.empty_append]
  · show ((do let text ← e.layOut l 0; return text :: (← Expr.layOutAll l [])) >>= _) = _
    rw [Expr.layOut, hbare]
    show ((do let text ← e.format l l.pretty 0; return text :: (← Expr.layOutAll l [])) >>= _) = _
    cases e.format l l.pretty 0 with
    | error f => rfl
    | ok text =>
      show Except.ok (l.gap.intercalate [text]) = _
      rw [String.intercalate_singleton]

theorem dropSpans_encodeText (inField : Bool) (s : String) :
    (encodeText inField s).dropSpans = encodeText inField s ∧
      (encodeText inField s).hasBare = false := by
  unfold encodeText
  split_ifs
  · exact ⟨rfl, rfl⟩
  · exact ⟨rfl, rfl⟩

theorem encodeAll_texts (rs : Records) (o : EncodeOptions) (inField : Bool) (xs : List String) :
    Value.encodeAll rs o inField (xs.map .str) = .ok (xs.map (encodeText inField)) := by
  induction xs with
  | nil => rfl
  | cons s xs ih =>
    rw [List.map_cons, Value.encodeAll, Value.encode, ih]
    rfl

theorem Value.print_texts (rs : Records) {o : PrintOptions} {l : Layout} (hl : o.layout = .ok l)
    (xs : List String) : (Value.list (xs.map .str)).print rs o =
      ((Expr.ofItems (xs.map (encodeText false))).format l l.pretty 0).mapError Failure.print := by
  refine Value.print_eq_format hl ?_ ?_ ?_
  · have hone : (Value.list (xs.map .str)).encode rs o.encode true =
        .ok (.ofItems (xs.map (encodeText false))) := by
      rw [Value.encode, encodeAll_texts]
      rfl
    rw [Value.toDocument]
    dsimp only
    rw [if_neg, hone]
    · rfl
    · -- texts are no expressions of their own
      cases xs with
      | nil => simp
      | cons s xs => simp [Value.isTopLevel]
  · rw [Expr.ofItems, Expr.dropSpans, Expr.dropSpansAll_eq_map, List.map_map]
    congr 1
    exact List.map_congr_left fun s _ => (dropSpans_encodeText false s).1
  · rw [Expr.ofItems, Expr.hasBare, Expr.anyHasBare_eq_any, List.any_map, List.any_eq_false]
    intro s _
    simp [(dropSpans_encodeText false s).2]

/-- A dictionary of texts. -/
def Value.ofEntries (m : List (String × String)) : Value :=
  .dict false (m.map fun entry => (.str entry.1, .str entry.2))

theorem encodeEntries_texts (rs : Records) (o : EncodeOptions) (m : List (String × String)) :
    Value.encodeEntries rs o (m.map fun entry => (.str entry.1, .str entry.2)) =
      .ok (m.map Field.ofEntry) := by
  induction m with
  | nil => rfl
  | cons entry m ih =>
    rw [List.map_cons, Value.encodeEntries, Value.encode, Value.encode, ih]
    rfl

theorem Value.print_entries (rs : Records) {o : PrintOptions} {l : Layout} (hl : o.layout = .ok l)
    (m : List (String × String)) : (Value.ofEntries m).print rs o =
      ((Expr.ofEntries m).format l l.pretty 0).mapError Failure.print := by
  refine Value.print_eq_format hl ?_ ?_ ?_
  · have hone : (Value.ofEntries m).encode rs o.encode true = .ok (.ofEntries m) := by
      rw [Value.ofEntries, Value.encode, encodeEntries_texts]
      rfl
    show ((Value.ofEntries m).encode rs o.encode true >>= _) = _
    rw [hone]
    rfl
  · rw [Expr.ofEntries, Expr.dropSpans, Field.dropSpansAll_eq_map, List.map_map]
    congr 1
    refine List.map_congr_left fun entry _ => ?_
    simp [Field.ofEntry, Field.dropSpans, (dropSpans_encodeText false _).1]
  · rw [Expr.ofEntries, Expr.hasBare, Field.anyHasBare_eq_any, List.any_map, List.any_eq_false]
    intro entry _
    simp [Field.ofEntry, (dropSpans_encodeText false _).2]

/-! ### Decoding -/

namespace Decoders

variable {rs : Records}

theorem decodeStr_eq_ok {e : Expr} {path : String} {v : Value} :
    decodeStr (.expr e) path = .ok v ↔ ∃ s, e.heldText? = some s ∧ v = .str s := by
  cases e with
  | leaf l span =>
    cases l with
    | string s => simp [decodeStr, Expr.heldText?, eq_comm]
    | atom s => simp [decodeStr, Expr.heldText?, eq_comm]
    | _ => simp [decodeStr, Expr.heldText?]
  | _ => simp [decodeStr, Expr.heldText?]

theorem decodeWithin_str (n : Nat) (s : Subject) (path : String) :
    decodeWithin ⟨rs, [], []⟩ (n + 1) (.cls .str) s path = decodeStr s path := by
  rw [decodeWithin_succ fun key => List.not_mem_nil]
  exact decodeBase_cls rfl s path

/-- Decoding goes down two levels at least. -/
theorem exists_levels (rs : Records) (e : Expr) : ∃ n, levels ⟨rs, [], []⟩ e = n + 2 := by
  have hpos := e.depth_pos
  refine ⟨e.depth - 1, ?_⟩
  simp only [levels, List.length_nil]
  omega

theorem decodeItems_texts_iff (n : Nat) {path : String} {i : Nat} {es : List Expr}
    {vs : List Value} :
    decodeItems (decodeWithin ⟨rs, [], []⟩ (n + 1)) (.cls .str) path i es = .ok vs ↔
      ∃ xs : List String, es.map Expr.heldText? = xs.map some ∧ vs = xs.map .str := by
  induction es generalizing i vs with
  | nil =>
    rw [decodeItems]
    constructor
    · rintro ⟨⟩
      exact ⟨[], rfl, rfl⟩
    · rintro ⟨xs, hxs, rfl⟩
      rw [List.map_eq_nil_iff.1 (hxs.symm.trans List.map_nil)]
      rfl
  | cons e es ih =>
    rw [decodeItems, decodeWithin_str, Except.bind_eq_ok]
    constructor
    · rintro ⟨v, hv, hvs⟩
      obtain ⟨s, hs, rfl⟩ := decodeStr_eq_ok.1 hv
      obtain ⟨rest, hrest, hvs⟩ := Except.bind_eq_ok.1 hvs
      obtain ⟨xs, hxs, rfl⟩ := ih.1 hrest
      cases hvs
      exact ⟨s :: xs, by rw [List.map_cons, hs, hxs]; rfl, rfl⟩
    · rintro ⟨xs, hxs, rfl⟩
      obtain ⟨s, xs, rfl, hs, hrest⟩ := List.map_eq_cons_iff.1 (hxs.symm.trans (List.map_cons ..))
      refine ⟨.str s, decodeStr_eq_ok.2 ⟨s, hs.symm, rfl⟩,
        Except.bind_eq_ok.2 ⟨xs.map .str, ?_, rfl⟩⟩
      exact ih.2 ⟨xs, hrest.symm, rfl⟩

/-- A sequence of leaves that hold texts is decoded into a list of them, and nothing else is. -/
theorem decode_texts_iff {e : Expr} {path : String} {v : Value} :
    decode ⟨rs, [], []⟩ (.list (.cls .str)) e path = .ok v ↔
      ∃ values spans, ∃ xs : List String, e = .items .sequence values spans ∧
        values.map Expr.heldText? = xs.map some ∧ v = .list (xs.map .str) := by
  obtain ⟨n, hn⟩ := exists_levels rs e
  have hdecode : decode ⟨rs, [], []⟩ (.list (.cls .str)) e path =
      decodeList (decodeWithin ⟨rs, [], []⟩ (n + 1)) (.cls .str) (.expr e) path := by
    rw [decode, hn, decodeWithin_succ fun key => List.not_mem_nil]
    unfold decodeBase
    rfl
  rw [hdecode]
  constructor
  · intro h
    unfold decodeList at h
    split at h
    · rename_i values spans hsubject
      cases hsubject
      obtain ⟨vs, hvs, h⟩ := Except.bind_eq_ok.1 h
      obtain ⟨xs, hxs, rfl⟩ := (decodeItems_texts_iff n).1 hvs
      cases h
      exact ⟨values, spans, xs, rfl, hxs, rfl⟩
    · cases h
  · rintro ⟨values, spans, xs, rfl, hxs, rfl⟩
    exact Except.bind_eq_ok.2 ⟨_, (decodeItems_texts_iff n).2 ⟨xs, hxs, rfl⟩, rfl⟩

theorem exists_of_decodeEntries (n : Nat) {whole : Subject} {path : String} {i : Nat}
    {fs : List Field} {es es' : Entries}
    (h : decodeEntries (decodeWithin ⟨rs, [], []⟩ (n + 1)) (.cls .str) (.cls .str) whole path i fs
      es = .ok es') : ∀ f ∈ fs, ∃ entry, Field.HoldsEntry f entry := by
  induction fs generalizing i es with
  | nil => simp
  | cons f fs ih =>
    rw [decodeEntries, decodeWithin_str, decodeWithin_str] at h
    obtain ⟨k, hk, h⟩ := Except.bind_eq_ok.1 h
    obtain ⟨v, hv, h⟩ := Except.bind_eq_ok.1 h
    obtain ⟨key, hkey, rfl⟩ := decodeStr_eq_ok.1 hk
    obtain ⟨value, hvalue, rfl⟩ := decodeStr_eq_ok.1 hv
    refine List.forall_mem_cons.2 ⟨⟨(key, value), hkey, hvalue⟩, ?_⟩
    exact ih h

theorem decode_dict (rs : Records) (e : Expr) (path : String) : ∃ n,
    decode ⟨rs, [], []⟩ (.dict (.cls .str) (.cls .str)) e path =
      decodeDict (decodeWithin ⟨rs, [], []⟩ (n + 1)) (.cls .str) (.cls .str) (.expr e) path := by
  obtain ⟨n, hn⟩ := exists_levels rs e
  refine ⟨n, ?_⟩
  rw [decode, hn, decodeWithin_succ fun key => List.not_mem_nil]
  unfold decodeBase
  rfl

/-- Only a map of leaves that hold texts is decoded into a dictionary of texts. -/
theorem exists_of_decode_entries {e : Expr} {path : String} {v : Value}
    (h : decode ⟨rs, [], []⟩ (.dict (.cls .str) (.cls .str)) e path = .ok v) :
    ∃ fields spans, e = .map fields spans ∧ ∀ f ∈ fields, ∃ entry, Field.HoldsEntry f entry := by
  obtain ⟨n, hn⟩ := decode_dict rs e path
  rw [hn] at h
  unfold decodeDict at h
  split at h
  · rename_i fields spans hsubject
    cases hsubject
    obtain ⟨es, hes, -⟩ := Except.bind_eq_ok.1 h
    exact ⟨fields, spans, rfl, exists_of_decodeEntries n hes⟩
  · cases h

/-- A map of leaves that hold texts, with different keys, is decoded into the dictionary. -/
theorem decode_entries {fields : List Field} {m : List (String × String)}
    (h : List.Forall₂ Field.HoldsEntry fields m) (hnodup : (m.map Prod.fst).Nodup)
    (spans : BracketSpans) (path : String) :
    decode ⟨rs, [], []⟩ (.dict (.cls .str) (.cls .str)) (.map fields spans) path =
      .ok (.ofEntries m) := by
  obtain ⟨n, hn⟩ := decode_dict rs (.map fields spans) path
  have hentries : List.Forall₂ (fun f entry =>
      (∀ path, decodeWithin ⟨rs, [], []⟩ (n + 1) (.cls .str) (.expr f.key) path =
        .ok (.str entry.1)) ∧
      ∀ path, decodeWithin ⟨rs, [], []⟩ (n + 1) (.cls .str) (.expr f.value) path = .ok entry.2)
      fields (m.map fun entry => (entry.1, Value.str entry.2)) := by
    refine List.forall₂_map_right_iff.2 (h.imp fun f entry hf => ⟨fun path => ?_, fun path => ?_⟩)
    · rw [decodeWithin_str]
      exact decodeStr_eq_ok.2 ⟨entry.1, hf.1, rfl⟩
    · rw [decodeWithin_str]
      exact decodeStr_eq_ok.2 ⟨entry.2, hf.2, rfl⟩
  have hall := decodeEntries_eq_ok hentries (by rwa [List.map_map])
    (fun _ _ _ hold => absurd hold List.not_mem_nil) (.expr (.map fields spans)) path 0
  rw [hn]
  show (decodeEntries _ _ _ _ _ _ _ [] >>= _) = _
  rw [hall, List.nil_append, List.map_map]
  rfl

/-! ### Source texts -/

theorem onlyExpr_eq_ok {doc : Document} {e : Expr} : onlyExpr doc = .ok e ↔ doc.exprs = [e] := by
  unfold onlyExpr
  split
  · rename_i e' hexprs
    simp [hexprs]
  · rename_i hexprs
    simp only [reduceCtorEq, false_iff]
    exact hexprs e

/-- A source text is decoded from its only expression, with or without its spans. -/
theorem read_eq_ok_iff {d : Decoders} {t : Target} {src : String} {spans : Bool} {v : Value} :
    d.read (some t) src spans = .ok v ↔ ∃ doc e, Document.read src = .ok doc ∧ doc.exprs = [e] ∧
      d.decode t (if spans then e else e.dropSpans) rootPath = .ok v := by
  have hparse : ∀ e, (∃ doc, Document.parse src spans = .ok doc ∧ doc.exprs = [e]) ↔
      ∃ doc e', Document.read src = .ok doc ∧ doc.exprs = [e'] ∧
        (if spans then e' else e'.dropSpans) = e := by
    intro e
    cases spans with
    | true => simp [Document.parse, and_comm]
    | false =>
      cases hdoc : Document.read src with
      | error f => simp [Document.parse, Document.readPlain, hdoc, Except.map]
      | ok doc =>
        simp [Document.parse, Document.readPlain, hdoc, Except.map, Document.dropSpans,
          Expr.dropSpansAll_eq_map, List.map_eq_singleton_iff]
  have hread : d.read (some t) src spans = .ok v ↔
      ∃ e, (∃ doc, Document.parse src spans = .ok doc ∧ doc.exprs = [e]) ∧
        d.decode t e rootPath = .ok v := by
    show ((Document.parse src spans).mapError Failure.read >>= fun doc =>
      onlyExpr doc >>= fun e => d.decode t e rootPath) = .ok v ↔ _
    cases Document.parse src spans with
    | error f => simp [Except.mapError, bind, Except.bind]
    | ok doc =>
      show (onlyExpr doc >>= _) = _ ↔ _
      rw [Except.bind_eq_ok]
      simp [onlyExpr_eq_ok]
  rw [hread]
  simp only [hparse]
  constructor
  · rintro ⟨e, ⟨doc, e', hdoc, hexprs, rfl⟩, hv⟩
    exact ⟨doc, e', hdoc, hexprs, hv⟩
  · rintro ⟨doc, e', hdoc, hexprs, hv⟩
    exact ⟨_, ⟨doc, e', hdoc, hexprs, rfl⟩, hv⟩

/-- A source text is decoded into texts exactly if it is a sequence of leaves that hold them. -/
theorem read_texts_iff {src : String} {spans : Bool} {xs : List String} :
    read ⟨rs, [], []⟩ (some (.list (.cls .str))) src spans = .ok (.list (xs.map .str)) ↔
      ∃ doc values bounds, Document.read src = .ok doc ∧
        doc.exprs = [.items .sequence values bounds] ∧ values.map Expr.heldText? = xs.map some := by
  have hstr : Function.Injective Value.str := fun s t h => Value.str.inj h
  rw [read_eq_ok_iff]
  simp only [decode_texts_iff]
  constructor
  · rintro ⟨doc, e, hdoc, hexprs, values, bounds, xs', he, hxs, hv⟩
    obtain rfl := hstr.list_map (Value.list.inj hv)
    cases spans with
    | true =>
      rw [if_pos rfl] at he
      exact ⟨doc, values, bounds, hdoc, he ▸ hexprs, hxs⟩
    | false =>
      rw [if_neg (by decide)] at he
      cases e with
      | items enclosure values' bounds' =>
        rw [Expr.dropSpans, Expr.dropSpansAll_eq_map] at he
        obtain ⟨rfl, rfl, -⟩ := Expr.items.inj he
        rw [map_heldText?_dropSpans] at hxs
        exact ⟨doc, values', bounds', hdoc, hexprs, hxs⟩
      | _ => cases he
  · rintro ⟨doc, values, bounds, hdoc, hexprs, hxs⟩
    refine ⟨doc, _, hdoc, hexprs, ?_⟩
    cases spans with
    | true => exact ⟨values, bounds, xs, rfl, hxs, rfl⟩
    | false =>
      refine ⟨values.map Expr.dropSpans, .none, xs, ?_, ?_, rfl⟩
      · rw [if_neg (by decide), Expr.dropSpans, Expr.dropSpansAll_eq_map]
      · rw [map_heldText?_dropSpans, hxs]

/-- Only a map of leaves that hold texts is read as a dictionary of texts. -/
theorem exists_of_read_entries {src : String} {spans : Bool} {v : Value}
    (h : read ⟨rs, [], []⟩ (some (.dict (.cls .str) (.cls .str))) src spans = .ok v) :
    ∃ doc fields bounds, Document.read src = .ok doc ∧ doc.exprs = [.map fields bounds] ∧
      ∀ f ∈ fields, ∃ entry, Field.HoldsEntry f entry := by
  obtain ⟨doc, e, hdoc, hexprs, hv⟩ := read_eq_ok_iff.1 h
  obtain ⟨fields, bounds, he, hfields⟩ := exists_of_decode_entries hv
  cases spans with
  | true =>
    rw [if_pos rfl] at he
    exact ⟨doc, fields, bounds, hdoc, he ▸ hexprs, hfields⟩
  | false =>
    rw [if_neg (by decide)] at he
    cases e with
    | map fields' bounds' =>
      rw [Expr.dropSpans, Field.dropSpansAll_eq_map] at he
      obtain ⟨rfl, -⟩ := Expr.map.inj he
      refine ⟨doc, fields', bounds', hdoc, hexprs, fun f hf => ?_⟩
      obtain ⟨entry, hentry⟩ := hfields _ (List.mem_map_of_mem hf)
      exact ⟨entry, Field.holdsEntry_dropSpans.1 hentry⟩
    | _ => cases he

/-- A map of leaves that hold texts, with different keys, is read as the dictionary. -/
theorem read_entries {src : String} {doc : Document} {fields : List Field}
    {bounds : BracketSpans} {m : List (String × String)} (hdoc : Document.read src = .ok doc)
    (hexprs : doc.exprs = [.map fields bounds]) (h : List.Forall₂ Field.HoldsEntry fields m)
    (hnodup : (m.map Prod.fst).Nodup) (spans : Bool) :
    read ⟨rs, [], []⟩ (some (.dict (.cls .str) (.cls .str))) src spans = .ok (.ofEntries m) := by
  refine read_eq_ok_iff.2 ⟨doc, _, hdoc, hexprs, ?_⟩
  cases spans with
  | true => exact decode_entries h hnodup bounds rootPath
  | false =>
    rw [if_neg (by decide), Expr.dropSpans, Field.dropSpansAll_eq_map]
    exact decode_entries (List.forall₂_map_left_iff.2 (h.imp fun f entry => Field.holdsEntry_dropSpans.2))
      hnodup .none rootPath

/-! ### Lists and dictionaries -/

theorem layout_concise : PrintOptions.concise.layout = .ok ⟨false, 2, 88⟩ := rfl

/-- What is read of a list that was written. -/
theorem exists_print_texts (rs : Records) (xs : List String) :
    ∃ text, (Value.list (xs.map .str)).print rs .concise = .ok text ∧ ∀ spans,
      (read ⟨rs, [], []⟩ (some (.list (.cls .str))) text spans = .ok (.list (xs.map .str)) ↔
        (∀ s ∈ xs, isAtomText s = true → (Leaf.atom s).Readable) ∧
          ((Expr.ofItems (xs.map (encodeText false))).inline.length ≤ 88 ∨
            ∀ s ∈ xs, ∀ c ∈ s.toList, c ∉ keptLineEnds)) := by
  let l : Layout := ⟨false, 2, 88⟩
  obtain ⟨text, g, t, hformat, htext, hg, ht⟩ := l.exists_format_texts xs rfl
  generalize he : Expr.ofItems (xs.map (encodeText false)) = e at hformat ht ⊢
  have hback : ∀ s, isAtomText s = true → l.comesBack e s = s :=
    fun s => l.comesBack_of_isAtomText e
  have hsame : (∀ s ∈ xs, l.comesBack e s = s) ↔
      e.inline.length ≤ 88 ∨ ∀ s ∈ xs, ∀ c ∈ s.toList, c ∉ keptLineEnds := by
    rw [l.forall_comesBack_iff]
    simp [l, Layout.fits]
  refine ⟨text, ?_, fun spans => ?_⟩
  · rw [Value.print_texts rs layout_concise, he, hformat]
    rfl
  · rw [read_texts_iff, ← hsame, ← map_eq_self_iff]
    constructor
    · rintro ⟨doc, values, bounds, hdoc, hexprs, hheld⟩
      have hread := Document.readable_of_read_texts hback htext hg ht hdoc hexprs hheld
      refine ⟨hread, ?_⟩
      -- the text has one reading only
      obtain ⟨doc', values', bounds', hdoc', hexprs', hheld'⟩ :=
        Document.exists_read_texts htext hg ht hback hread
      obtain rfl := Except.ok.inj (hdoc.symm.trans hdoc')
      obtain ⟨-, rfl, -⟩ := Expr.items.inj (List.cons.inj (hexprs.symm.trans hexprs')).1
      exact (Option.some_injective String).list_map (hheld'.symm.trans hheld)
    · rintro ⟨hread, hsame⟩
      obtain ⟨doc, values, bounds, hdoc, hexprs, hheld⟩ :=
        Document.exists_read_texts htext hg ht hback hread
      rw [hsame] at hheld
      exact ⟨doc, values, bounds, hdoc, hexprs, hheld⟩

/-- What is read of a dictionary that was written. -/
theorem exists_print_entries (rs : Records) {m : List (String × String)}
    (hnodup : (m.map Prod.fst).Nodup) :
    ∃ text, (Value.ofEntries m).print rs .concise = .ok text ∧ ∀ spans,
      ((∀ entry ∈ m, EntryReadable entry) ∧ ((Expr.ofEntries m).inline.length ≤ 88 ∨
          ∀ entry ∈ m, ∀ c ∈ entry.2.toList, c ∉ keptLineEnds) →
        read ⟨rs, [], []⟩ (some (.dict (.cls .str) (.cls .str))) text spans =
          .ok (.ofEntries m)) ∧
      ((∀ entry ∈ m, ¬Scan.OpensQuote entry.1 ∧ ¬Scan.OpensQuote entry.2) →
        read ⟨rs, [], []⟩ (some (.dict (.cls .str) (.cls .str))) text spans = .ok (.ofEntries m) →
        (∀ entry ∈ m, EntryReadable entry) ∧ ((Expr.ofEntries m).inline.length ≤ 88 ∨
          ∀ entry ∈ m, ∀ c ∈ entry.2.toList, c ∉ keptLineEnds)) := by
  let l : Layout := ⟨false, 2, 88⟩
  obtain ⟨text, g, t, hformat, htext, hg, ht⟩ := l.exists_format_entries m rfl
  generalize he : Expr.ofEntries m = e at hformat ht ⊢
  have hback : ∀ s, isAtomText s = true → l.comesBack e s = s :=
    fun s => l.comesBack_of_isAtomText e
  have hsame : (m.map fun entry => (entry.1, l.comesBack e entry.2)) = m ↔
      e.inline.length ≤ 88 ∨ ∀ entry ∈ m, ∀ c ∈ entry.2.toList, c ∉ keptLineEnds := by
    have hvalues : (∀ s ∈ m.map Prod.snd, l.comesBack e s = s) ↔ _ := l.forall_comesBack_iff e
    simp only [List.forall_mem_map, Layout.fits, decide_eq_true_iff] at hvalues
    rw [map_eq_self_iff]
    simp only [Prod.ext_iff, true_and]
    exact hvalues
  have hread : (∀ entry ∈ m, EntryReadable entry) → ∀ spans,
      read ⟨rs, [], []⟩ (some (.dict (.cls .str) (.cls .str))) text spans =
        .ok (.ofEntries (m.map fun entry => (entry.1, l.comesBack e entry.2))) := by
    intro hreadable spans
    obtain ⟨doc, fields, bounds, hdoc, hexprs, hheld⟩ :=
      Document.exists_read_entries htext hg ht hback hreadable
    refine read_entries hdoc hexprs hheld ?_ spans
    rwa [List.map_map]
  refine ⟨text, ?_, fun spans => ⟨?_, ?_⟩⟩
  · rw [Value.print_entries rs layout_concise, he, hformat]
    rfl
  · rintro ⟨hreadable, hlines⟩
    rw [hread hreadable spans, hsame.2 hlines]
  · intro hquote hv
    obtain ⟨doc, fields, bounds, hdoc, hexprs, hheld⟩ := exists_of_read_entries hv
    have hreadable :=
      Document.entryReadable_of_read_entries hback htext hg ht hquote hdoc hexprs hheld
    rw [hread hreadable spans] at hv
    have hentries := (Value.dict.inj (Except.ok.inj hv)).2
    refine ⟨hreadable, hsame.1 (List.map_injective_iff.2 ?_ hentries)⟩
    intro entry entry' heq
    exact Prod.ext (Value.str.inj (Prod.mk.inj heq).1) (Value.str.inj (Prod.mk.inj heq).2)

/-- Lists and dictionaries of texts are written always. A list is read again as it was exactly if
all texts in it that stand without quotes are names and no numbers, and if it is written in one line
or none of its texts keeps the end of a line as it is. A dictionary is read again if the same holds
of its values and its keys are names together with their colons; unless a text without quotes starts
with a quote, it is read again only then. -/
theorem read_print_texts (rs : Records) :
    (∀ xs : List String, ∃ text, (Value.list (xs.map .str)).print rs .concise = .ok text ∧
      ∀ spans,
        (read ⟨rs, [], []⟩ (some (.list (.cls .str))) text spans = .ok (.list (xs.map .str)) ↔
          (∀ s ∈ xs, isAtomText s = true → (Leaf.atom s).Readable) ∧
            ((Expr.ofItems (xs.map (encodeText false))).inline.length ≤ 88 ∨
              ∀ s ∈ xs, ∀ c ∈ s.toList, c ∉ keptLineEnds))) ∧
    ∀ m : List (String × String), (m.map Prod.fst).Nodup →
      ∃ text, (Value.ofEntries m).print rs .concise = .ok text ∧ ∀ spans,
        ((∀ entry ∈ m, EntryReadable entry) ∧ ((Expr.ofEntries m).inline.length ≤ 88 ∨
            ∀ entry ∈ m, ∀ c ∈ entry.2.toList, c ∉ keptLineEnds) →
          read ⟨rs, [], []⟩ (some (.dict (.cls .str) (.cls .str))) text spans =
            .ok (.ofEntries m)) ∧
        ((∀ entry ∈ m, ¬Scan.OpensQuote entry.1 ∧ ¬Scan.OpensQuote entry.2) →
          read ⟨rs, [], []⟩ (some (.dict (.cls .str) (.cls .str))) text spans =
            .ok (.ofEntries m) →
          (∀ entry ∈ m, EntryReadable entry) ∧ ((Expr.ofEntries m).inline.length ≤ 88 ∨
            ∀ entry ∈ m, ∀ c ∈ entry.2.toList, c ∉ keptLineEnds)) :=
  ⟨exists_print_texts rs, fun _ hnodup => exists_print_entries rs hnodup⟩

/-- Texts with blanks are quoted, and a number may be a key. -/
theorem read_print_texts_quoted :
    (∃ text, (Value.list [.str "x", .str "a b"]).print [] .concise = .ok text ∧
      read ⟨[], [], []⟩ (some (.list (.cls .str))) text false = .ok (.list [.str "x", .str "a b"])) ∧
    ∃ text, (Value.dict false [(.str "1", .str "a b")]).print [] .concise = .ok text ∧
      read ⟨[], [], []⟩ (some (.dict (.cls .str) (.cls .str))) text false =
        .ok (.dict false [(.str "1", .str "a b")]) := by
  obtain ⟨hlists, hdicts⟩ := read_print_texts []
  constructor
  · obtain ⟨text, htext, hread⟩ := hlists ["x", "a b"]
    refine ⟨text, htext, (hread false).2 ⟨?_, .inr (by simp [keptLineEnds])⟩⟩
    intro s hs hatom
    rcases List.mem_pair.1 hs with rfl | rfl
    · exact ⟨by decide, by decide⟩
    · exact absurd hatom (by decide)
  · obtain ⟨text, htext, hread⟩ := hdicts [("1", "a b")] (by simp)
    refine ⟨text, htext, (hread false).1 ⟨?_, .inr (by simp [keptLineEnds])⟩⟩
    intro entry hentry
    rw [List.mem_singleton.1 hentry]
    exact ⟨fun _ => by decide, fun hatom => absurd hatom (by decide)⟩

/-- A text of digits is written without quotes and read as a number. -/
theorem read_print_number : (Value.list [.str "1"]).print [] .concise = .ok "[1]" ∧
    ∀ v, read ⟨[], [], []⟩ (some (.list (.cls .str))) "[1]" false ≠ .ok v := by
  refine ⟨rfl, fun v hv => ?_⟩
  have hparse : Document.parse "[1]" false =
      .ok ⟨[.items .sequence [.leaf (.int 1) none] .none], none⟩ := by decide +kernel
  rw [read, hparse] at hv
  cases hv

end Decoders
end Sexpr
