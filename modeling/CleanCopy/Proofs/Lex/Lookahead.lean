import CleanCopy.Proofs.Lex.Reading

namespace CleanCopy.Lexicon

theorem startsWith_cons_single (c a : Char) (t : Text) :
    Text.startsWith (c :: t) [a] = decide (c = a) := by
  by_cases h : a = c
  · simp [Text.startsWith, Text.after?, h]
  · simp [Text.startsWith, Text.after?, h, Ne.symm h]

theorem startsWith_cons_cons (c a b : Char) (s t : Text) :
    Text.startsWith (c :: t) (a :: b :: s) = (decide (c = a) && t.startsWith (b :: s)) := by
  by_cases h : a = c
  · simp [Text.startsWith, Text.after?, h]
  · simp [Text.startsWith, Text.after?, h, Ne.symm h]

theorem startsWith_single (a : Char) (t : Text) :
    t.startsWith [a] = decide (t.head? = some a) := by
  cases t with
  | nil => rfl
  | cons c t => simp [startsWith_cons_single]

theorem typeScript_token?_cons (c : Char) (t : Text) :
    typeScript.token? (c :: t) =
      if c = '/' then
        if t.head? = some '/' then some (.lineComment .plain)
        else if t.head? = some '*' then
          some (.blockComment (if isDocMarker ['/', '*', '*'] ('/' :: t) then .doc else .plain)
            ['/', '*'])
        else none
      else if c = '\x60' then some (.literal (.spanning ['\x60'] ['\x60'] .backslash))
      else if c = '\"' then some (.literal (.quote ['\"']))
      else if c = '\'' then some (.literal (.quote ['\'']))
      else none := by
  simp only [token?, lineToken?, blockToken?, typeScript, Option.any_none, Option.any_some,
    startsWith_cons_cons, startsWith_single, Delimiter.spanning, Delimiter.quote,
    List.find?_cons, Bool.false_eq_true, if_false]
  by_cases hc : c = '/'
  · subst hc
    by_cases h1 : t.head? = some '/'
    · simp [h1]
    · by_cases h2 : t.head? = some '*'
      · simp [h2]
        rfl
      · simp [h1, h2]
  · by_cases h1 : c = '\x60'
    · simp [h1]
    · by_cases h2 : c = '\"'
      · simp [h2]
      · by_cases h3 : c = '\'' <;> simp [hc, h1, h2, h3]

theorem typeScript_token?_literal {c : Char} {t : Text} {d : Delimiter}
    (h : typeScript.token? (c :: t) = some (.literal d)) (u : Text) :
    typeScript.token? (c :: u) = some (.literal d) := by
  rw [typeScript_token?_cons] at h ⊢
  split at h
  · split at h
    · cases h
    · split at h <;> cases h
  · rename_i hc
    rw [if_neg hc]
    exact h

theorem typeScript_token?_eq_none_iff (c : Char) (t : Text) :
    typeScript.token? (c :: t) = none ↔
      (c = '/' ∧ t.head? ≠ some '/' ∧ t.head? ≠ some '*') ∨
        (c ≠ '/' ∧ c ≠ '\x60' ∧ c ≠ '\"' ∧ c ≠ '\'') := by
  rw [typeScript_token?_cons]
  by_cases hc : c = '/'
  · by_cases h1 : t.head? = some '/' <;> by_cases h2 : t.head? = some '*' <;> simp [hc, h1, h2]
  · by_cases h1 : c = '\x60' <;> by_cases h2 : c = '\"' <;> by_cases h3 : c = '\'' <;>
      simp [hc, h1, h2, h3]

theorem typeScript_isDocMarker_congr (a b c : Char) (t u : Text) :
    isDocMarker ['/', '*', '*'] ('/' :: a :: b :: c :: t) =
      isDocMarker ['/', '*', '*'] ('/' :: a :: b :: c :: u) := by
  simp only [isDocMarker, Text.after?, if_true]
  by_cases ha : '*' = a
  · subst ha
    by_cases hb : '*' = b
    · subst hb
      simp only [if_true, List.head?_cons]
    · simp only [hb, if_true, if_false]
  · simp only [ha, if_false]

/-- Text may change behind other text as long as it does not come to begin like a comment. -/
theorem typeScript_allows {r r' : Text}
    (h : r'.head? = some '/' ∨ r'.head? = some '*' → r.head? = some '/' ∨ r.head? = some '*') :
    typeScript.Allows r r' where
  clear c s hn := by
    rw [typeScript_token?_eq_none_iff] at hn ⊢
    refine hn.imp (fun hc => ⟨hc.1, ?_⟩) id
    cases s with
    | nil =>
      rw [← not_or] at hc ⊢
      exact fun hr => hc.2 (h hr)
    | cons a s => exact hc.2
  block s cls opener ht hlen := by
    obtain ⟨closer, hb⟩ := blockComment_of_token? ht
    obtain ⟨rfl, rfl⟩ := Prod.mk.inj (Option.some.inj hb)
    -- A block comment is at least four characters long, and its class is decided by them.
    obtain ⟨a, b, c, d, u, rfl⟩ : ∃ a b c d u, s = a :: b :: c :: d :: u := by
      match s, hlen with
      | a :: b :: c :: d :: u, _ => exact ⟨a, b, c, d, u, rfl⟩
    simp only [List.cons_append, typeScript_token?_cons, List.head?_cons] at ht ⊢
    rw [typeScript_isDocMarker_congr b c d (u ++ r') (u ++ r)]
    exact ht
  literal s d ht hlen := by
    cases s with
    | nil =>
      have := (typeScript_regular _ (opener_mem (literal_mem_of_token? ht))).1
      exact absurd (List.length_eq_zero_iff.mp (by simp at hlen; simp [hlen.1])) this
    | cons a s => exact typeScript_token?_literal ht _
  doubled d hd he := by
    simp only [typeScript, List.mem_cons, List.not_mem_nil, or_false] at hd
    rcases hd with rfl | rfl | rfl <;> cases he

theorem python_token?_cons (c : Char) (t : Text) :
    python.token? (c :: t) =
      if c = '#' then some (.lineComment .plain)
      else if c = '\"' then
        if t.startsWith ['\"', '\"'] then
          some (.literal (.spanning ['\"', '\"', '\"'] ['\"', '\"', '\"'] .backslash))
        else some (.literal (.quote ['\"']))
      else if c = '\'' then
        if t.startsWith ['\'', '\''] then
          some (.literal (.spanning ['\'', '\'', '\''] ['\'', '\'', '\''] .backslash))
        else some (.literal (.quote ['\'']))
      else none := by
  simp only [token?, lineToken?, blockToken?, python, Option.any_none, Option.any_some,
    startsWith_cons_cons, startsWith_single, Delimiter.spanning, Delimiter.quote,
    List.find?_cons, Bool.false_eq_true, if_false, List.head?_cons, Option.some.injEq]
  by_cases hc : c = '#'
  · simp [hc]
  · by_cases h1 : c = '\"'
    · cases t.startsWith ['\"', '\"'] <;> simp [h1]
    · by_cases h2 : c = '\''
      · cases t.startsWith ['\'', '\''] <;> simp [h2]
      · simp [hc, h1, h2]

theorem python_token?_eq_none_iff (c : Char) (t : Text) :
    python.token? (c :: t) = none ↔ c ≠ '#' ∧ c ≠ '\"' ∧ c ≠ '\'' := by
  rw [python_token?_cons]
  by_cases hc : c = '#'
  · simp [hc]
  · by_cases h1 : c = '\"'
    · cases t.startsWith ['\"', '\"'] <;> simp [h1]
    · by_cases h2 : c = '\''
      · cases t.startsWith ['\'', '\''] <;> simp [h2]
      · simp [hc, h1, h2]

/-- A quote after a quote that is closed makes no triple quote where there was none. -/
theorem startsWith_quotes_congr {q b : Char} {s r r' : Text}
    (h : r'.head? = some q → r.head? = some q)
    (hs : Text.startsWith (b :: (s ++ r)) [q, q] = true → s ≠ []) :
    Text.startsWith (b :: (s ++ r')) [q, q] = Text.startsWith (b :: (s ++ r)) [q, q] := by
  cases s with
  | cons a s =>
    simp only [List.cons_append, startsWith_cons_cons, startsWith_single, List.head?_cons,
      Option.some.injEq]
  | nil =>
    have hfalse := Bool.eq_false_iff.mpr fun ht => hs ht rfl
    rw [hfalse]
    simp only [List.nil_append, startsWith_cons_cons, startsWith_single, Bool.and_eq_false_iff,
      decide_eq_false_iff_not] at hfalse ⊢
    exact hfalse.imp id fun hr hr' => hr (h hr')

/-- Text may change behind other text as long as it does not come to begin with a quote. -/
theorem python_allows {r r' : Text}
    (h : ∀ q, q = '\"' ∨ q = '\'' → r'.head? = some q → r.head? = some q) :
    python.Allows r r' where
  clear c s hn := by
    rw [python_token?_eq_none_iff] at hn ⊢
    exact hn
  block s cls opener ht _ := by
    obtain ⟨closer, hb⟩ := blockComment_of_token? ht
    cases hb
  literal s d ht hlen := by
    have hd := literal_mem_of_token? ht
    have ho := List.length_pos_iff.mpr (python_regular _ (opener_mem hd)).1
    have hc := List.length_pos_iff.mpr (python_regular _ (closer_mem hd)).1
    obtain ⟨c, b, u, rfl⟩ : ∃ c b u, s = c :: b :: u := by
      match s with
      | [] =>
        simp only [List.length_nil] at hlen
        omega
      | [c] =>
        simp only [List.length_singleton] at hlen
        omega
      | c :: b :: u => exact ⟨c, b, u, rfl⟩
    simp only [List.cons_append, python_token?_cons] at ht ⊢
    -- With one character behind the first quote the triple opener is not closed on this line.
    have same (q : Char) (hq : q = '\"' ∨ q = '\'')
        (hl : Text.startsWith (b :: (u ++ r)) [q, q] = true → 6 ≤ d.opener.length + d.closer.length) :
        Text.startsWith (b :: (u ++ r')) [q, q] = Text.startsWith (b :: (u ++ r)) [q, q] := by
      refine startsWith_quotes_congr (h q hq) fun hs hu => ?_
      have := hl hs
      simp [hu] at hlen
      omega
    by_cases h1 : c = '\"'
    · subst h1
      rw [same '\"' (.inl rfl) fun hs => ?_]
      · exact ht
      · simp [hs, Delimiter.spanning] at ht
        simp [← ht]
    · by_cases h2 : c = '\''
      · subst h2
        rw [same '\'' (.inr rfl) fun hs => ?_]
        · exact ht
        · simp [hs, Delimiter.spanning] at ht
          simp [← ht]
      · simp only [h1, h2, if_false] at ht ⊢
        exact ht
  doubled d hd he := by
    simp only [python, List.mem_cons, List.not_mem_nil, or_false] at hd
    rcases hd with rfl | rfl | rfl | rfl <;> cases he

end CleanCopy.Lexicon
