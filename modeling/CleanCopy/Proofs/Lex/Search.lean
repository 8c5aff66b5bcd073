import CleanCopy.Lex.Escape

namespace CleanCopy

namespace Text

variable {p s t : Text}

theorem after?_append_of_some {r : Text} (h : after? p s = some r) (b : Text) :
    after? p (s ++ b) = some (r ++ b) := by
  rw [after?_eq_some_iff] at h ⊢
  rw [h, List.append_assoc]

/-- Whether a text begins with `p` shows in its first `p.length` characters. -/
theorem after?_append (h : p.length ≤ s.length) (b : Text) :
    after? p (s ++ b) = (after? p s).map (· ++ b) := by
  induction p generalizing s with
  | nil => rfl
  | cons a p ih =>
    cases s with
    | nil => exact absurd h (by simp)
    | cons c cs =>
      rw [List.cons_append, after?, after?]
      split
      · exact ih (by simpa using h)
      · rfl

theorem after?_eq_none_of_append {b : Text} (h : after? p (s ++ b) = none) : after? p s = none := by
  cases hs : after? p s with
  | none => rfl
  | some r => rw [after?_append_of_some hs] at h; cases h

theorem after?_self_append (p r : Text) : after? p (p ++ r) = some r :=
  after?_eq_some_iff.mpr rfl

theorem cut?_self_append (needle rest : Text) : cut? needle (needle ++ rest) = some ([], rest) := by
  cases h : needle ++ rest with
  | nil =>
    obtain ⟨rfl, rfl⟩ := List.append_eq_nil_iff.mp h
    rfl
  | cons c cs => rw [cut?, ← h, after?_self_append]

/-- The first occurrence stays the first one, whatever stands behind it. -/
theorem cut?_congr {needle a b : Text} (h : cut? needle t = some (a, b)) (b' : Text) :
    cut? needle (a ++ needle ++ b') = some (a, b') := by
  induction t generalizing a b with
  | nil =>
    have happ := cut?_append h
    simp only [List.append_eq_nil_iff] at happ
    obtain ⟨⟨rfl, rfl⟩, rfl⟩ := happ
    exact cut?_self_append [] b'
  | cons c cs ih =>
    have happ := cut?_append h
    rw [cut?] at h
    split at h
    · rename_i rest hd
      obtain ⟨rfl, rfl⟩ := Prod.mk.inj (Option.some.inj h)
      exact cut?_self_append needle b'
    · rename_i hd
      obtain ⟨⟨a', r⟩, hr, he⟩ := Option.map_eq_some_iff.mp h
      obtain ⟨rfl, rfl⟩ := Prod.mk.inj he
      have hnone : after? needle (c :: a' ++ needle ++ b') = none := by
        have hlen : needle.length ≤ (c :: a' ++ needle).length := by simp; omega
        rw [← happ, after?_append hlen, Option.map_eq_none_iff] at hd
        rw [after?_append hlen, hd, Option.map_none]
      rw [List.cons_append, List.cons_append, cut?]
      rw [List.cons_append, List.cons_append] at hnone
      rw [hnone, ih hr]
      rfl

theorem cut?_append_of_some {needle a b : Text} (h : cut? needle t = some (a, b)) (w : Text) :
    cut? needle (t ++ w) = some (a, b ++ w) := by
  have := cut?_congr h (b ++ w)
  rwa [← List.append_assoc, cut?_append h] at this

theorem cut?_nil {needle : Text} (hn : needle ≠ []) : cut? needle [] = none := by
  rw [cut?, if_neg (by simpa using hn)]

/-- No occurrence begins in a text of other characters. -/
theorem cut?_append_of_apart {needle u : Text} (hn : needle ≠ []) (hu : ∀ c ∈ u, c ∉ needle)
    (t : Text) : cut? needle (u ++ t) = (cut? needle t).map fun (a, b) => (u ++ a, b) := by
  induction u with
  | nil => exact Option.map_id'.symm
  | cons c cs ih =>
    obtain ⟨hc, hcs⟩ := List.forall_mem_cons.mp hu
    have hnone : after? needle (c :: (cs ++ t)) = none := by
      cases needle with
      | nil => exact absurd rfl hn
      | cons a as => exact if_neg fun (he : a = c) => hc (he ▸ List.mem_cons_self)
    rw [List.cons_append, cut?, hnone, ih hcs, Option.map_map]
    rfl

/-- No occurrence reaches from a text without one into a text that begins with another character. -/
theorem cut?_append_of_none {needle u v : Text} (h : cut? needle u = none)
    (hv : ∀ c, v.head? = some c → c ∉ needle) :
    cut? needle (u ++ v) = (cut? needle v).map fun (a, b) => (u ++ a, b) := by
  induction u with
  | nil => exact Option.map_id'.symm
  | cons c cs ih =>
    rw [cut?] at h
    split at h
    · cases h
    · rename_i hnone
      have hcut : after? needle (c :: cs ++ v) = none := by
        cases hs : after? needle (c :: cs ++ v) with
        | none => rfl
        | some r =>
          rw [after?_eq_some_iff] at hs
          rcases List.append_eq_append_iff.mp hs with ⟨a, hn, hr⟩ | ⟨b, hb, -⟩
          · cases a with
            | nil =>
              rw [List.append_nil] at hn
              rw [after?_eq_some_iff.mpr (show c :: cs = needle ++ [] by rw [hn, List.append_nil])]
                at hnone
              cases hnone
            | cons d ds =>
              refine absurd ?_ (hv d (by rw [hr]; rfl))
              rw [hn]
              exact List.mem_append_right _ List.mem_cons_self
          · rw [after?_eq_some_iff.mpr hb] at hnone
            cases hnone
      rw [List.cons_append] at hcut ⊢
      rw [cut?, hcut, ih (Option.map_eq_none_iff.mp h), Option.map_map]
      rfl

theorem cut?_eq_none_of_append {needle b : Text} (hn : needle ≠ [])
    (h : cut? needle (s ++ b) = none) : cut? needle s = none := by
  induction s with
  | nil => rw [cut?, if_neg (by simpa using hn)]
  | cons c cs ih =>
    rw [List.cons_append, cut?] at h
    split at h
    · cases h
    · rename_i hd
      rw [cut?, after?_eq_none_of_append (b := b) hd, ih (Option.map_eq_none_iff.mp h)]
      rfl

end Text

namespace Escape

variable {e : Escape} {closer t body rest : Text} {skip : Nat} {odd : Bool}

theorem oddAfter_cons_of_ne {c : Char} (h : c ≠ '\\') (odd : Bool) (t : Text) :
    oddAfter odd (c :: t) = oddAfter false t := by
  rw [oddAfter, beq_eq_false_iff_ne.mpr h, Bool.false_and]

theorem oddAfter_of_notMem (h : '\\' ∉ t) : oddAfter false t = false := by
  induction t with
  | nil => rfl
  | cons c cs ih =>
    obtain ⟨hc, hcs⟩ := not_or.mp (mt List.mem_cons.mpr h)
    rw [oddAfter_cons_of_ne (Ne.symm hc), ih hcs]

theorem skip_le_of_closing? (h : e.closing? closer skip odd t = some (body, rest)) :
    skip ≤ body.length := by
  fun_induction closing? e closer skip odd t generalizing body <;>
    grind [Option.map_eq_some_iff]

theorem closing?_self_append (hc : closer ≠ []) (hb : e = backslash → odd = false)
    (hd : e = doubled → Text.startsWith rest closer = false) :
    e.closing? closer 0 odd (closer ++ rest) = some ([], rest) := by
  cases ht : closer ++ rest with
  | nil => exact absurd (List.append_eq_nil_iff.mp ht).1 hc
  | cons c cs =>
    have ha : Text.after? closer (c :: cs) = some rest := ht ▸ Text.after?_self_append closer rest
    rw [closing?, ha]
    cases e with
    | backslash => simp [hb rfl]
    | doubled => simp [hd rfl]
    | never => rfl

/-- Whether `closer` begins at a place before the end of `body ++ closer` does not hang on what
stands behind. -/
theorem after?_congr {c : Char} (rest rest' : Text) :
    (Text.after? closer (c :: body ++ closer ++ rest) = none ↔
      Text.after? closer (c :: body ++ closer ++ rest') = none) := by
  have hlen : closer.length ≤ (c :: body ++ closer).length := by simp; omega
  rw [Text.after?_append hlen, Text.after?_append hlen, Option.map_eq_none_iff,
    Option.map_eq_none_iff]

/-- Two closers that lie in what is passed over stay there, whatever stands behind. -/
theorem exists_after?_pair {c : Char} {b cs r v : Text} (htwice : c :: cs = closer ++ closer ++ v)
    (happ : c :: b ++ closer ++ r = c :: cs) (hlen : (closer ++ closer).length ≤ (c :: b).length)
    (rest' : Text) :
    ∃ u, Text.after? closer (c :: (b ++ closer ++ rest')) = some (closer ++ u) := by
  obtain ⟨u, hu⟩ : closer ++ closer <+: c :: b :=
    List.prefix_of_prefix_length_le ⟨v, htwice.symm⟩ ⟨closer ++ r, by rw [← happ]; simp⟩ hlen
  refine ⟨u ++ closer ++ rest', ?_⟩
  rw [Text.after?_eq_some_iff, ← List.cons_append, ← List.cons_append, ← hu]
  simp

/-- The closer of a literal stays the first one, whatever stands behind it; a doubled closer must
not come about. -/
theorem closing?_congr (hc : closer ≠ []) (h : e.closing? closer skip odd t = some (body, rest))
    {rest' : Text} (hd : e = doubled → Text.startsWith rest' closer = false) :
    e.closing? closer skip odd (body ++ closer ++ rest') = some (body, rest') := by
  have happ := closing?_append h
  fun_induction closing? e closer skip odd t generalizing body with
  | case1 odd he =>
    simp only [Bool.and_eq_true, List.isEmpty_iff] at he
    exact absurd he.1 hc
  | case2 => cases h
  | case3 => cases h
  | case4 skip odd c cs ih =>
    obtain ⟨⟨b, r⟩, hr, hp⟩ := Option.map_eq_some_iff.mp h
    obtain ⟨rfl, rfl⟩ := Prod.mk.inj hp
    have happ : b ++ closer ++ r = cs := (List.cons.inj happ).2
    exact congrArg (Option.map fun q => (c :: q.1, q.2)) (ih hr happ)
  | case5 odd c cs later hn =>
    rename_i ih
    obtain ⟨⟨b, r⟩, hr, hp⟩ := Option.map_eq_some_iff.mp h
    obtain ⟨rfl, rfl⟩ := Prod.mk.inj hp
    rw [← happ, after?_congr r rest'] at hn
    have happ : b ++ closer ++ r = cs := (List.cons.inj happ).2
    rw [List.cons_append, List.cons_append] at hn ⊢
    rw [closing?, hn]
    exact congrArg (Option.map fun q => (c :: q.1, q.2)) (ih 0 hr happ)
  | case6 c cs r ha he hs later =>
    rename_i ih
    obtain ⟨⟨b, r'⟩, hr, hp⟩ := Option.map_eq_some_iff.mp h
    obtain ⟨rfl, rfl⟩ := Prod.mk.inj hp
    -- A backslash stands before this closer, and it stands there still.
    have ha' : Text.after? closer (c :: b ++ closer ++ rest') ≠ none := by
      rw [Ne, ← after?_congr r' rest', happ, ha]
      exact Option.some_ne_none r
    obtain ⟨s, hs'⟩ := Option.ne_none_iff_exists'.mp ha'
    have happ : b ++ closer ++ r' = cs := (List.cons.inj happ).2
    rw [List.cons_append, List.cons_append] at hs' ⊢
    rw [closing?, hs']
    subst he
    simp only [if_true, if_pos hs]
    exact congrArg (Option.map fun q => (c :: q.1, q.2)) (ih 0 hr happ)
  | case7 => cases h
  | case8 odd c cs r ha he ho =>
    obtain ⟨rfl, rfl⟩ := Prod.mk.inj (Option.some.inj h)
    exact closing?_self_append hc (fun _ => by simpa using ho) hd
  | case9 odd c cs later r ha he hs =>
    rename_i ih
    obtain ⟨⟨b, r'⟩, hr, hp⟩ := Option.map_eq_some_iff.mp h
    obtain ⟨rfl, rfl⟩ := Prod.mk.inj hp
    -- Both closers of the pair lie in what is passed over.
    obtain ⟨v, hv⟩ := Option.isSome_iff_exists.mp hs
    have htwice : c :: cs = closer ++ closer ++ v := by
      rw [Text.after?_eq_some_iff.mp ha, Text.after?_eq_some_iff.mp hv, List.append_assoc]
    have hlen : (closer ++ closer).length ≤ (c :: b).length := by
      have := skip_le_of_closing? hr
      simp only [List.length_append, List.length_cons]
      omega
    obtain ⟨u, hafter⟩ := exists_after?_pair htwice happ hlen rest'
    have happ : b ++ closer ++ r' = cs := (List.cons.inj happ).2
    rw [List.cons_append, List.cons_append, closing?, hafter]
    subst he
    simp only [Text.startsWith, Text.after?_self_append, Option.isSome_some, if_true]
    exact congrArg (Option.map fun q => (c :: q.1, q.2)) (ih _ hr happ)
  | case10 odd c cs r ha he hs =>
    obtain ⟨rfl, rfl⟩ := Prod.mk.inj (Option.some.inj h)
    exact closing?_self_append hc (fun hb => by cases he.symm.trans hb) hd
  | case11 odd c cs r ha he =>
    obtain ⟨rfl, rfl⟩ := Prod.mk.inj (Option.some.inj h)
    exact closing?_self_append hc (fun hb => by cases he.symm.trans hb) hd

theorem startsWith_of_closing? (hc : closer ≠ []) (he : e = doubled)
    (h : e.closing? closer skip odd t = some (body, rest)) : Text.startsWith rest closer = false := by
  fun_induction closing? e closer skip odd t generalizing body <;>
    grind [Option.map_eq_some_iff]

/-- A literal that is open to the end of a text is open to the end of what the text begins with. -/
theorem closing?_eq_none_of_append {s b : Text} (he : e ≠ doubled) (hc : closer ≠ [])
    (hw : ∀ c ∈ closer, c.utf8Size = 1) (h : e.closing? closer 0 odd (s ++ b) = none) :
    e.closing? closer 0 odd s = none := by
  induction s generalizing odd with
  | nil =>
    have hemp : closer.isEmpty = false := by simpa using hc
    rw [closing?, hemp, Bool.false_and, if_neg Bool.false_ne_true]
  | cons c cs ih =>
    have step (hrest : e.closing? closer 0 (c == '\\' && !odd) (cs ++ b) = none) :
        Option.map (fun q : Text × Text => (c :: q.1, q.2))
          (e.closing? closer 0 (c == '\\' && !odd) cs) = none := by
      rw [ih hrest, Option.map_none]
    have hwide {r : Text} (ha : Text.after? closer (c :: (cs ++ b)) = some r) : c.utf8Size = 1 := by
      cases hcl : closer with
      | nil => exact absurd hcl hc
      | cons k ks =>
        rw [Text.after?_eq_some_iff, hcl] at ha
        exact hw c (by rw [hcl, (List.cons.inj ha).1]; exact List.mem_cons_self)
    rw [List.cons_append, closing?] at h
    rw [closing?]
    cases ha : Text.after? closer (c :: cs) with
    | some r =>
      have hab := Text.after?_append_of_some ha b
      rw [List.cons_append] at hab
      rw [hab] at h
      cases e with
      | backslash =>
        cases odd with
        | true =>
          simp only [if_true, hwide hab] at h ⊢
          exact step (Option.map_eq_none_iff.mp h)
        | false => simp at h
      | doubled => exact absurd rfl he
      | never => simp at h
    | none =>
      apply step
      cases hab : Text.after? closer (c :: (cs ++ b)) with
      | none =>
        rw [hab] at h
        exact Option.map_eq_none_iff.mp h
      | some r =>
        rw [hab] at h
        cases e with
        | backslash =>
          cases odd with
          | true =>
            simp only [if_true, hwide hab] at h
            exact Option.map_eq_none_iff.mp h
          | false => simp at h
        | doubled => exact absurd rfl he
        | never => simp at h

end Escape

end CleanCopy
