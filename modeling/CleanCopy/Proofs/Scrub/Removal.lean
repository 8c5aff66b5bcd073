import CleanCopy.Proofs.Scrub.Slices
import CleanCopy.Text.Bytes

namespace CleanCopy

namespace Text

variable {spans : List Span} {offset : Nat}

/-- The bytes of a text that begins at a byte offset, without those that lie in spans. -/
def bytesOutside (spans : List Span) (offset : Nat) (t : Text) : List UInt8 :=
  ((t.toBytes.data.toList.zipIdx offset).filter fun b => !spans.any (·.covers b.2)).map Prod.fst

theorem toList_toBytes (t : Text) : t.toBytes.data.toList = t.flatMap String.utf8EncodeChar := by
  rw [toBytes, String.toUTF8_eq_toByteArray, String.toByteArray_ofList, List.utf8Encode,
    List.toList_data_toByteArray]

theorem IsBoundary.of_cons {n : Nat} {c : Char} {cs : Text}
    (h : IsBoundary (c :: cs) (min (n - offset) (byteSize (c :: cs)))) :
    (n ≤ offset ∨ offset + c.utf8Size ≤ n) ∧
      cs.IsBoundary (min (n - (offset + c.utf8Size)) cs.byteSize) := by
  rw [byteSize] at h
  constructor
  · obtain ⟨p, q, hpq, hp⟩ := h
    have hc := c.utf8Size_pos
    cases p with
    | nil =>
      rw [byteSize] at hp
      omega
    | cons d ds =>
      obtain ⟨rfl, -⟩ := List.cons.inj hpq
      rw [byteSize] at hp
      omega
  · have hrest : IsBoundary ([c] ++ (cs ++ [])) (min (n - offset) (c.utf8Size + cs.byteSize)) := by
      rwa [List.append_nil]
    have hsize : byteSize [c] = c.utf8Size := rfl
    have := hrest.within
    rw [hsize] at this
    rwa [show min (n - (offset + c.utf8Size)) cs.byteSize =
      min (min (n - offset) (c.utf8Size + cs.byteSize) - c.utf8Size) cs.byteSize by omega]

theorem toList_toBytes_cons (c : Char) (cs : Text) : (toBytes (c :: cs)).data.toList =
    String.utf8EncodeChar c ++ cs.toBytes.data.toList := by
  rw [toList_toBytes, toList_toBytes, List.flatMap_cons]

theorem bytesOutside_cons {c : Char} {cs : Text} (h : ∀ s ∈ spans,
      (s.start ≤ offset ∨ offset + c.utf8Size ≤ s.start) ∧
        (s.stop ≤ offset ∨ offset + c.utf8Size ≤ s.stop)) :
    bytesOutside spans offset (c :: cs) =
      (if spans.any (·.covers offset) then [] else String.utf8EncodeChar c) ++
        bytesOutside spans (offset + c.utf8Size) cs := by
  have hcovers (b : UInt8 × Nat) (hb : b ∈ (String.utf8EncodeChar c).zipIdx offset) :
      spans.any (·.covers b.2) = spans.any (·.covers offset) := by
    obtain ⟨hle, hlt, -⟩ := List.mem_zipIdx hb
    rw [String.length_utf8EncodeChar] at hlt
    rw [Bool.eq_iff_iff]
    simp only [List.any_eq_true, Span.covers, Bool.and_eq_true, decide_eq_true_eq]
    refine exists_congr fun s => and_congr_right fun hs => ?_
    have := h s hs
    omega
  rw [bytesOutside, toList_toBytes_cons, List.zipIdx_append, List.filter_append, List.map_append,
    String.length_utf8EncodeChar]
  congr 1
  split
  · rename_i hany
    rw [List.filter_eq_nil_iff.mpr fun b hb => by simp [hcovers b hb, hany]]
    rfl
  · rename_i hany
    rw [List.filter_eq_self.mpr fun b hb => by simp [hcovers b hb, hany], List.zipIdx_map_fst]

/-- Spans that do not split a character leave the bytes outside them as text. -/
theorem toBytes_outside {t : Text} (h : ∀ s ∈ spans,
      t.IsBoundary (min (s.start - offset) t.byteSize) ∧
        t.IsBoundary (min (s.stop - offset) t.byteSize)) :
    (outside spans offset t).toBytes.data.toList = bytesOutside spans offset t := by
  induction t generalizing offset with
  | nil => rfl
  | cons c cs ih =>
    have hrest := ih fun s hs => ⟨(h s hs).1.of_cons.2, (h s hs).2.of_cons.2⟩
    rw [bytesOutside_cons fun s hs => ⟨(h s hs).1.of_cons.1, (h s hs).2.of_cons.1⟩, ← hrest, outside]
    split
    · rfl
    · exact toList_toBytes_cons c _

end Text

namespace Line

variable {spans : List Span} {offset : Nat} {l : Line} {a e : Text}

/-- A byte of the line's text lies in a span; an empty line has the byte at its place. -/
def Met (spans : List Span) (offset : Nat) (l : Line) : Prop :=
  ∃ n, offset ≤ n ∧ n < offset + max l.text.byteSize 1 ∧ ∃ s ∈ spans, s.covers n = true

/-- What becomes of a line at a byte offset. It stays as it is if no byte of it lies in a span. Else
its bytes outside the spans are kept, without the blanks at their end, unless all of them are blank. -/
inductive Leaves (spans : List Span) (offset : Nat) (l : Line) : Option Line → Prop
  | untouched (h : ¬ l.Met spans offset) : Leaves spans offset l (some l)
  | gone (h : l.Met spans offset) {kept : Text}
      (hkept : kept.toBytes.data.toList = l.text.bytesOutside spans offset)
      (hblank : kept.isBlank = true) : Leaves spans offset l none
  | trimmed (h : l.Met spans offset) {kept : Text}
      (hkept : kept.toBytes.data.toList = l.text.bytesOutside spans offset)
      (hblank : kept.isBlank = false) : Leaves spans offset l (some (l.withText kept.trimEnd))

theorem met_iff (hfilled : ∀ s ∈ spans, s.start < s.stop) :
    l.Met spans offset ↔ spans.any (·.touches offset l.text.byteSize) = true := by
  simp only [Met, List.any_eq_true, Span.touches, Span.covers, Bool.and_eq_true, decide_eq_true_eq]
  constructor
  · rintro ⟨n, hn, hn', s, hs, hstart, hstop⟩
    exact ⟨s, hs, by omega, by omega⟩
  · rintro ⟨s, hs, hstart, hstop⟩
    have := hfilled s hs
    exact ⟨max s.start offset, by omega, by omega, s, hs, by omega, by omega⟩

theorem leaves_outside (h : (a ++ (l.text ++ e)).Spanned spans)
    (hfilled : ∀ s ∈ spans, s.start < s.stop) :
    l.Leaves spans a.byteSize (l.outside spans a.byteSize) := by
  have hkept : (l.text.outside spans a.byteSize).toBytes.data.toList =
      l.text.bytesOutside spans a.byteSize :=
    Text.toBytes_outside fun s hs => ⟨(h.start s hs).within, (h.stop s hs).within⟩
  rw [outside]
  split
  · rename_i htouch
    have hmet := (met_iff hfilled).mpr htouch
    dsimp only
    split
    · rename_i hblank
      exact .gone hmet hkept hblank
    · rename_i hblank
      exact .trimmed hmet hkept (by simpa using hblank)
  · rename_i htouch
    exact .untouched fun hmet => htouch ((met_iff hfilled).mp hmet)

end Line

namespace Document

/-- Filled spans that cut a text between characters, each behind the one before it, are cut out of
it without a slice out of bounds. Each line stands in the text at its offset and loses exactly
the bytes that lie in a span. -/
theorem removeSpans_exact {t : Text} {spans : List Span} (h : t.Spanned spans)
    (hfilled : ∀ s ∈ spans, s.start < s.stop) :
    (parse t).removeSpans? spans = some ((parse t).removeSpans spans) ∧
      (∀ p ∈ (parse t).placed, ∃ e, t = p.1 ++ (p.2.render ++ e)) ∧
      ∃ kept, (parse t).removeSpans spans = (parse t).withLines kept.reduceOption ∧
        List.Forall₂ (fun p l => p.2.Leaves spans p.1.byteSize l) (parse t).placed kept := by
  have hrender := render_parse t
  have hspanned : (parse t).render.Spanned spans := hrender.symm ▸ h
  refine ⟨?_, fun p hp => hrender ▸ append_of_mem_placed hp,
    (parse t).placed.map fun p => p.2.outside spans p.1.byteSize, ?_, ?_⟩
  · rw [removeSpans?_eq hspanned, removeSpans_eq hspanned]
  · rw [removeSpans_eq hspanned, placed, ← Line.outsideAll_eq]
    rfl
  · rw [List.forall₂_map_right_iff, List.forall₂_same]
    intro p hp
    obtain ⟨e, he⟩ := append_text_of_mem_placed hp
    exact Line.leaves_outside (he ▸ hspanned) hfilled

/-- A span behind a wide character, one on the carriage return of an empty line, and one over a line
end, in a text without a last line feed. -/
theorem removeSpans_exact_over_line_ends :
    let t : Text := "é /*x*/ y\r\n\r\n/*z\n*/ w\nend".toList
    let spans : List Span := [⟨3, 8⟩, ⟨12, 13⟩, ⟨14, 20⟩]
    (t.Spanned spans ∧ ∀ s ∈ spans, s.start < s.stop) ∧
      (parse t).removeSpans? spans = some ((parse t).removeSpans spans) ∧
      (∀ p ∈ (parse t).placed, ∃ e, t = p.1 ++ (p.2.render ++ e)) ∧
      (∃ kept, (parse t).removeSpans spans = (parse t).withLines kept.reduceOption ∧
        List.Forall₂ (fun p l => p.2.Leaves spans p.1.byteSize l) (parse t).placed kept) ∧
      ((parse t).removeSpans spans).render = "é  y\r\n w\nend".toList := by
  intro t spans
  have h : t.Spanned spans ∧ ∀ s ∈ spans, s.start < s.stop := by decide +kernel
  obtain ⟨hslices, hplaced, hkept⟩ := removeSpans_exact h.1 h.2
  exact ⟨h, hslices, hplaced, hkept, by decide +kernel⟩

end Document

end CleanCopy
