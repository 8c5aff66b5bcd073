import CleanCopy.Proofs.Lex.Closer
import CleanCopy.Proofs.Text.Offset
import Mathlib.Order.Bounds.Basic

namespace CleanCopy

namespace Text

/-- The text as the body of a literal in which a backslash escapes: one stands before each quote and
before each backslash. -/
def escaped (quote : Char) (t : Text) : Text :=
  t.flatMap fun c => if c = '\\' ∨ c = quote then ['\\', c] else [c]

/-- The text as the body of a literal in which a quote is written twice. -/
def doubled (quote : Char) (t : Text) : Text := t.flatMap fun c => if c = quote then [c, c] else [c]

theorem endsEscaped_concat {t : Text} {c : Char} :
    (t ++ [c]).EndsEscaped ↔ c = '\\' ∧ ¬ t.EndsEscaped := by
  rw [← Escape.oddAfter_iff, ← Escape.oddAfter_iff, Escape.oddAfter_concat, Bool.and_eq_true,
    beq_iff_eq, Bool.not_eq_true', Bool.not_eq_true]

theorem not_endsEscaped_of_getLast? {t : Text} (h : t.getLast? ≠ some '\\') : ¬ t.EndsEscaped :=
  fun he => h (Escape.getLast?_of_oddAfter (Escape.oddAfter_iff.mpr he))

end Text

namespace Escape

/-- A closer stands at a byte offset, behind an even number of backslashes where a backslash
escapes. -/
def ClosesAt (e : Escape) (closer t : Text) (n : Nat) : Prop :=
  ∃ before rest, t = before ++ closer ++ rest ∧ before.byteSize = n ∧
    (e = backslash → Even (before.rtakeWhile (· == '\\')).length)

variable {e : Escape} {closer before rest t body s : Text} {quote : Char} {start : Nat}

/-- What passes for the body of a literal holds no offset at which the literal closes. -/
theorem quiet_iff_closesAt (he : e ≠ doubled) : e.Quiet closer before rest t ↔
    ∀ n, before.byteSize ≤ n → n < (before ++ t).byteSize →
      ¬ e.ClosesAt closer (before ++ (t ++ rest)) n := by
  rw [quiet_iff he]
  constructor
  · rintro h n hle hlt ⟨b, r, htext, rfl, heven⟩
    rw [List.append_assoc] at htext
    obtain ⟨s, rfl⟩ := Text.isPrefix_of_byteSize_le htext hle
    rw [List.append_assoc, List.append_right_inj] at htext
    have hsize : Text.byteSize s ≤ t.byteSize := by
      rw [Text.byteSize_append, Text.byteSize_append] at hlt
      omega
    obtain ⟨u, rfl⟩ := Text.isPrefix_of_byteSize_le htext.symm hsize
    have hu : u ≠ [] := by
      rintro rfl
      rw [List.append_nil] at hlt
      exact absurd hlt (Nat.lt_irrefl _)
    rw [List.append_assoc, List.append_right_inj] at htext
    obtain ⟨rfl, hodd⟩ := h s u rfl hu ⟨r, htext.symm⟩
    exact Nat.not_odd_iff_even.mpr (heven rfl) hodd
  · rintro h s u rfl hu ⟨r, hr⟩
    have hlt : (before ++ s).byteSize < (before ++ (s ++ u)).byteSize := by
      have := Text.byteSize_pos hu
      simp only [Text.byteSize_append]
      omega
    have hnot := h (before ++ s).byteSize (by rw [Text.byteSize_append]; omega) hlt
    by_contra hfree
    refine hnot ⟨before ++ s, r, by simp only [List.append_assoc, hr], rfl, fun he => ?_⟩
    exact Nat.not_odd_iff_even.mp fun hodd => hfree ⟨he, hodd⟩

theorem find?_append (e : Escape) (closer before t : Text) :
    e.find? closer before.byteSize (before ++ t) =
      (e.closing? closer 0 (oddAfter false before) t).map fun q =>
        before.byteSize + q.1.byteSize := by
  rw [find?, Text.splitAtByte?_append]

theorem find?_of_closing? (h : e.closing? closer 0 (oddAfter false before) t = some (body, rest)) :
    e.find? closer before.byteSize (before ++ t) = some (before ++ body).byteSize := by
  rw [find?_append, h, Option.map_some, Text.byteSize_append]

/-- The offset found is the least one at which the literal closes. -/
theorem isLeast_of_find? (he : e ≠ doubled) (hc : closer.IsDelimiter) (ht : t.IsBoundary start)
    {n : Nat} (h : e.find? closer start t = some n) :
    IsLeast {n | start ≤ n ∧ e.ClosesAt closer t n} n := by
  obtain ⟨before, t, rfl, rfl⟩ := ht
  rw [find?_append, Option.map_eq_some_iff] at h
  obtain ⟨⟨body, rest⟩, hfound, hn⟩ := h
  obtain ⟨rfl, hquiet, hends⟩ := (closing?_eq_some_iff hc).mp hfound
  rw [← Text.byteSize_append] at hn
  refine ⟨⟨by rw [← hn, Text.byteSize_append]; omega, before ++ body, rest, ?_, hn, ?_⟩, ?_⟩
  · simp only [List.append_assoc]
  · rintro rfl
    exact Nat.not_odd_iff_even.mp hends
  · rintro m ⟨hle, hcloses⟩
    by_contra hlt
    rw [List.append_assoc body] at hcloses
    exact (quiet_iff_closesAt he).mp hquiet m hle (by rw [hn]; omega) hcloses

theorem find?_eq_none_iff (he : e ≠ doubled) (hc : closer.IsDelimiter) (ht : t.IsBoundary start) :
    e.find? closer start t = none ↔ ∀ n, start ≤ n → ¬ e.ClosesAt closer t n := by
  obtain ⟨before, t, rfl, rfl⟩ := ht
  rw [find?_append, Option.map_eq_none_iff, closing?_eq_none_iff hc, quiet_iff_closesAt he,
    List.append_nil]
  refine ⟨fun h n hle hcloses => ?_, fun h n hle _ => h n hle⟩
  refine h n hle ?_ hcloses
  obtain ⟨b, r, htext, rfl, -⟩ := hcloses
  have := Text.byteSize_pos hc.1
  rw [htext, Text.byteSize_append, Text.byteSize_append]
  omega

theorem find?_eq_some_iff (he : e ≠ doubled) (hc : closer.IsDelimiter) (ht : t.IsBoundary start)
    {n : Nat} : e.find? closer start t = some n ↔
      IsLeast {n | start ≤ n ∧ e.ClosesAt closer t n} n := by
  refine ⟨isLeast_of_find? he hc ht, fun h => ?_⟩
  cases hf : e.find? closer start t with
  | none => exact absurd h.1.2 ((find?_eq_none_iff he hc ht).mp hf n h.1.1)
  | some m => rw [(isLeast_of_find? he hc ht hf).unique h]

theorem not_endsEscaped_escaped (hb : ¬ before.EndsEscaped) (quote : Char) (s : Text) :
    ¬ (before ++ s.escaped quote).EndsEscaped := by
  induction s generalizing before with
  | nil => rwa [Text.escaped, List.flatMap_nil, List.append_nil]
  | cons c s ih =>
    rw [Text.escaped, List.flatMap_cons, ← List.append_assoc]
    refine ih ?_
    split
    · rw [List.append_cons, Text.endsEscaped_concat, Text.endsEscaped_concat]
      exact fun h => h.2 ⟨rfl, hb⟩
    · rename_i hc
      rw [Text.endsEscaped_concat]
      exact fun h => hc (.inl h.1)

/-- No quote in an escaped text closes the literal. -/
theorem quiet_escaped (hb : ¬ before.EndsEscaped) (hq : quote ≠ '\\') (s rest : Text) :
    backslash.Quiet (quote :: closer) before rest (s.escaped quote) := by
  induction s generalizing before with
  | nil => exact quiet_nil ..
  | cons c s ih =>
    have he : backslash ≠ doubled := nofun
    have hfirst {a : Char} {r : Text} (h : quote :: closer <+: a :: r) : quote = a :=
      (List.cons_prefix_cons.mp h).1
    rw [Text.escaped, List.flatMap_cons]
    split
    · have hodd : (before ++ ['\\']).EndsEscaped := Text.endsEscaped_concat.mpr ⟨rfl, hb⟩
      refine (quiet_cons he).mpr ⟨fun h => absurd (hfirst h) hq, ?_⟩
      refine (quiet_cons he).mpr ⟨fun _ => ⟨rfl, hodd⟩, ih ?_⟩
      rw [Text.endsEscaped_concat]
      exact fun h => h.2 hodd
    · rename_i hc
      refine (quiet_cons he).mpr ⟨fun h => absurd (.inr (hfirst h).symm) hc, ih ?_⟩
      rw [Text.endsEscaped_concat]
      exact fun h => hc (.inl h.1)

theorem find?_escaped (hsize : quote.utf8Size = 1) (hq : quote ≠ '\\') {k : Nat} (hk : 0 < k)
    (hb : before.getLast? ≠ some '\\') (s rest : Text) :
    backslash.find? (List.replicate k quote) before.byteSize
        (before ++ (s.escaped quote ++ List.replicate k quote ++ rest)) =
      some (before ++ s.escaped quote).byteSize := by
  obtain ⟨k, rfl⟩ := Nat.exists_eq_add_one_of_ne_zero hk.ne'
  have hfree := Text.not_endsEscaped_of_getLast? hb
  have hc : Text.IsDelimiter (List.replicate (k + 1) quote) :=
    ⟨nofun, fun c hc => by rw [List.eq_of_mem_replicate hc, hsize]⟩
  refine find?_of_closing? (closing?_eq_some_of_quiet hc ?_ ?_)
  · exact quiet_escaped hfree hq s _
  · exact not_endsEscaped_escaped hfree quote s

/-- Quotes in a doubled text stand in pairs. -/
theorem paired_doubled (quote : Char) (s rest : Text) : Paired [quote] rest (s.doubled quote) := by
  induction s with
  | nil => exact .nil
  | cons c s ih =>
    rw [Text.doubled, List.flatMap_cons]
    split
    · rename_i hc
      rw [hc]
      exact .pair ih
    · rename_i hc
      exact .char (fun h => hc (List.cons_prefix_cons.mp h).1.symm) ih

theorem find?_doubled (before s : Text) (hr : rest.head? ≠ some quote) :
    doubled.find? [quote] before.byteSize (before ++ (s.doubled quote ++ [quote] ++ rest)) =
      some (before ++ s.doubled quote).byteSize := by
  have hends : doubled.Ends [quote] (before ++ s.doubled quote) rest := by
    rintro ⟨r, rfl⟩
    exact hr rfl
  have hpaired := (paired_doubled quote s ([quote] ++ rest)).closing? (List.cons_ne_nil _ _)
    (oddAfter false before)
  have hfound : doubled.closing? [quote] 0 (oddAfter false before)
      (s.doubled quote ++ [quote] ++ rest) = some (s.doubled quote, rest) := by
    rw [List.append_assoc, hpaired, ← oddAfter_append,
      closing?_of_ends (List.cons_ne_nil _ _) hends]
    simp
  exact find?_of_closing? hfound

/-- The search finds the least offset at which a literal closes, if there is one, and so the end of
whatever text is written down as the body of a literal. -/
theorem find?_exact :
    (∀ (e : Escape) (closer t : Text) (start : Nat), e ≠ doubled → closer.IsDelimiter →
      t.IsBoundary start →
        (∀ n, e.find? closer start t = some n ↔
          IsLeast {n | start ≤ n ∧ e.ClosesAt closer t n} n) ∧
        (e.find? closer start t = none ↔ ∀ n, start ≤ n → ¬ e.ClosesAt closer t n)) ∧
    (∀ (quote : Char) (k : Nat) (before s rest : Text), quote.utf8Size = 1 → quote ≠ '\\' → 0 < k →
      before.getLast? ≠ some '\\' →
        backslash.find? (List.replicate k quote) before.byteSize
            (before ++ (s.escaped quote ++ List.replicate k quote ++ rest)) =
          some (before ++ s.escaped quote).byteSize) ∧
    ∀ (quote : Char) (before s rest : Text), rest.head? ≠ some quote →
      doubled.find? [quote] before.byteSize (before ++ (s.doubled quote ++ [quote] ++ rest)) =
        some (before ++ s.doubled quote).byteSize :=
  ⟨fun _ _ _ _ he hc ht => ⟨fun _ => find?_eq_some_iff he hc ht, find?_eq_none_iff he hc ht⟩,
    fun _ _ _ s rest hsize hq hk hb => find?_escaped hsize hq hk hb s rest,
    fun _ before s _ hr => find?_doubled before s hr⟩

/-- An escaped closer of three quotes with a free one across it; a quote and a backslash as the body
between three quotes, with another quote behind; a doubled quote behind a backslash. -/
theorem find?_exact_across :
    IsLeast {n | 2 ≤ n ∧
      backslash.ClosesAt ['\"', '\"', '\"'] ['é', '\\', '\"', '\"', '\"', '\"'] n} 4 ∧
    backslash.find? ['\"', '\"', '\"'] 1
      ['=', '\\', '\"', '\\', '\\', '\"', '\"', '\"', '\"'] = some 5 ∧
    doubled.find? ['\"'] 1 ['\\', '\"', '\"', '\"'] = some 3 := by
  refine ⟨?_, ?_, ?_⟩
  · have hc : Text.IsDelimiter ['\"', '\"', '\"'] := by decide
    have hstart : Text.IsBoundary ['é', '\\', '\"', '\"', '\"', '\"'] 2 :=
      ⟨['é'], ['\\', '\"', '\"', '\"', '\"'], rfl, rfl⟩
    exact ((find?_exact.1 backslash _ _ 2 nofun hc hstart).1 4).mp (by decide)
  · exact find?_exact.2.1 '\"' 3 ['='] ['\"', '\\'] ['\"'] (by decide) (by decide) (by decide)
      (by decide)
  · exact find?_exact.2.2 '\"' ['\\'] ['\"'] [] (by decide)

end Escape

end CleanCopy
