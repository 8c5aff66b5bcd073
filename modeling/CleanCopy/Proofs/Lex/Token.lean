import CleanCopy.Lex.Languages
import CleanCopy.Lex.Scan
import CleanCopy.Proofs.Lex.Search
import CleanCopy.Proofs.Text.Trim

namespace CleanCopy.Lexicon

/-- All delimiters of a lexicon. -/
def delimiters (x : Lexicon) : List Text :=
  x.lineComment.toList ++ x.docLineComment.toList ++
    x.blockComment.toList.flatMap (fun b => [b.1, b.2]) ++ x.docBlockOpener.toList ++
    x.literals.flatMap fun d => [d.opener, d.closer]

/-- A text that is not empty, in ASCII without whitespace. -/
def Solid (s : Text) : Prop := s ≠ [] ∧ ∀ c ∈ s, isBlank c = false ∧ c.utf8Size = 1

-- The characters of the text are gone through, not all that there are.
instance (s : Text) : Decidable (Solid s) :=
  haveI : Decidable (∀ c ∈ s, isBlank c = false ∧ c.utf8Size = 1) := List.decidableBAll _ s
  inferInstanceAs (Decidable (_ ∧ _))

def Regular (x : Lexicon) : Prop := ∀ s ∈ x.delimiters, Solid s

instance (x : Lexicon) : Decidable x.Regular := List.decidableBAll Solid x.delimiters

/-- No delimiter is empty or holds whitespace. -/
def Unbroken (x : Lexicon) : Prop := ∀ s ∈ x.delimiters, s ≠ [] ∧ ∀ c ∈ s, isBlank c = false

instance (x : Lexicon) : Decidable x.Unbroken :=
  haveI (s : Text) : Decidable (∀ c ∈ s, isBlank c = false) := List.decidableBAll _ s
  List.decidableBAll (fun s => s ≠ [] ∧ ∀ c ∈ s, isBlank c = false) x.delimiters

/-- No delimiter is empty. -/
def Filled (x : Lexicon) : Prop := ∀ s ∈ x.delimiters, s ≠ []

theorem Regular.unbroken {x : Lexicon} (hx : x.Regular) : x.Unbroken :=
  fun s hs => ⟨(hx s hs).1, fun c hc => ((hx s hs).2 c hc).1⟩

theorem Unbroken.filled {x : Lexicon} (hx : x.Unbroken) : x.Filled := fun s hs => (hx s hs).1

theorem Regular.filled {x : Lexicon} (hx : x.Regular) : x.Filled := hx.unbroken.filled

theorem typeScript_regular : typeScript.Regular := by decide

theorem python_regular : python.Regular := by decide

theorem cSharp_regular : cSharp.Regular := by decide

variable {x : Lexicon} {odd : Bool} {t : Text}

theorem blockOpener_mem {opener closer : Text} (h : x.blockComment = some (opener, closer)) :
    opener ∈ x.delimiters := by
  simp [delimiters, h]

theorem blockCloser_mem {opener closer : Text} (h : x.blockComment = some (opener, closer)) :
    x.blockCloser = closer ∧ closer ∈ x.delimiters := by
  simp [blockCloser, delimiters, h]

theorem opener_mem {d : Delimiter} (h : d ∈ x.literals) : d.opener ∈ x.delimiters :=
  List.mem_append_right _ (List.mem_flatMap.mpr ⟨d, h, by simp⟩)

theorem closer_mem {d : Delimiter} (h : d ∈ x.literals) : d.closer ∈ x.delimiters :=
  List.mem_append_right _ (List.mem_flatMap.mpr ⟨d, h, by simp⟩)

/-- What holds of all delimiters holds of the closer of block comments, which there is without them too. -/
theorem blockCloser_of {P : Text → Prop} (hdefault : P ['*', '/']) (h : ∀ s ∈ x.delimiters, P s) :
    P x.blockCloser := by
  cases hb : x.blockComment with
  | none => rwa [blockCloser, hb]
  | some b =>
    obtain ⟨he, hm⟩ := blockCloser_mem (show x.blockComment = some (b.1, b.2) from hb)
    rw [he]
    exact h _ hm

theorem Regular.blockCloser (hx : x.Regular) : Solid x.blockCloser :=
  blockCloser_of (by decide) hx

theorem Unbroken.blockCloser (hx : x.Unbroken) :
    x.blockCloser ≠ [] ∧ ∀ c ∈ x.blockCloser, isBlank c = false :=
  blockCloser_of ⟨by decide, by simp; decide⟩ hx

theorem Filled.blockCloser (hx : x.Filled) : x.blockCloser ≠ [] :=
  blockCloser_of (by decide) hx

/-- A text that begins with a delimiter begins with a visible character. -/
theorem Unbroken.startsWith (hx : x.Unbroken) {s : Text} (hs : s ∈ x.delimiters) {c : Char}
    (h : Text.startsWith (c :: t) s = true) : isBlank c = false := by
  obtain ⟨hne, hc⟩ := hx s hs
  obtain ⟨r, hr⟩ := Option.isSome_iff_exists.mp h
  rw [Text.after?_eq_some_iff] at hr
  cases s with
  | nil => exact absurd rfl hne
  | cons a s => exact hc c (by rw [(List.cons.inj hr).1]; exact List.mem_cons_self)

theorem startsWith_of_isDocMarker {s : Text} (h : isDocMarker s t = true) :
    t.startsWith s = true := by
  rw [isDocMarker] at h
  rw [Text.startsWith]
  split at h
  · cases h
  · rename_i r hr
    rw [hr]
    rfl

theorem lineToken?_eq_some {tok : Token} (h : x.lineToken? t = some tok) :
    (∃ cls, tok = .lineComment cls) ∧ ∃ s ∈ x.delimiters, t.startsWith s = true := by
  rw [lineToken?] at h
  split at h
  · rename_i hd
    obtain ⟨s, hs, hm⟩ := (Option.any_eq_true _ _).mp hd
    exact ⟨⟨.doc, (Option.some.inj h).symm⟩, s, by simp [delimiters, hs],
      startsWith_of_isDocMarker hm⟩
  · split at h
    · rename_i hl
      obtain ⟨s, hs, hm⟩ := (Option.any_eq_true _ _).mp hl
      exact ⟨⟨.plain, (Option.some.inj h).symm⟩, s, by simp [delimiters, hs], hm⟩
    · cases h

theorem blockToken?_eq_some {tok : Token} (h : x.blockToken? t = some tok) :
    ∃ cls opener closer, tok = .blockComment cls opener ∧ x.blockComment = some (opener, closer) ∧
      t.startsWith opener = true := by
  rw [blockToken?] at h
  split at h
  · cases h
  · rename_i opener closer hb
    split at h
    · rename_i hs
      exact ⟨_, opener, closer, (Option.some.inj h).symm, hb, hs⟩
    · cases h

/-- The three kinds of token, and what the text then begins with. -/
theorem token?_eq_some {tok : Token} (h : x.token? t = some tok) :
    ((∃ cls, tok = .lineComment cls) ∧ ∃ s ∈ x.delimiters, t.startsWith s = true) ∨
    (∃ cls opener closer, tok = .blockComment cls opener ∧
      x.blockComment = some (opener, closer) ∧ t.startsWith opener = true) ∨
    (∃ d ∈ x.literals, tok = .literal d ∧ t.startsWith d.opener = true) := by
  rw [token?] at h
  cases hl : x.lineToken? t with
  | some tok' =>
    rw [hl] at h
    obtain rfl := Option.some.inj h
    exact .inl (lineToken?_eq_some hl)
  | none =>
    rw [hl] at h
    cases hb : x.blockToken? t with
    | some tok' =>
      rw [hb] at h
      obtain rfl := Option.some.inj h
      exact .inr (.inl (blockToken?_eq_some hb))
    | none =>
      rw [hb] at h
      obtain ⟨d, hd, rfl⟩ := Option.map_eq_some_iff.mp h
      exact .inr (.inr ⟨d, List.mem_of_find?_eq_some hd, rfl,
        List.find?_some (p := fun d : Delimiter => t.startsWith d.opener) hd⟩)

theorem literal_mem_of_token? {d : Delimiter} (h : x.token? t = some (.literal d)) :
    d ∈ x.literals := by
  rcases token?_eq_some h with ⟨⟨cls, he⟩, -⟩ | ⟨cls, opener, closer, he, -⟩ | ⟨d', hd, he, -⟩
  · cases he
  · cases he
  · cases he
    exact hd

theorem blockComment_of_token? {cls : CommentClass} {opener : Text}
    (h : x.token? t = some (.blockComment cls opener)) :
    ∃ closer, x.blockComment = some (opener, closer) := by
  rcases token?_eq_some h with ⟨⟨cls', he⟩, -⟩ | ⟨cls', opener', closer, he, hb, -⟩ | ⟨d, -, he, -⟩
  · cases he
  · cases he
    exact ⟨closer, hb⟩
  · cases he

theorem token?_delimiter {tok : Token} (h : x.token? t = some tok) :
    ∃ s ∈ x.delimiters, t.startsWith s = true := by
  rcases token?_eq_some h with ⟨-, h⟩ | ⟨cls, opener, closer, -, hb, hs⟩ | ⟨d, hd, -, hs⟩
  · exact h
  · exact ⟨opener, blockOpener_mem hb, hs⟩
  · exact ⟨d.opener, opener_mem hd, hs⟩

theorem Filled.token?_nil (hx : x.Filled) : x.token? [] = none := by
  cases h : x.token? [] with
  | none => rfl
  | some tok =>
    obtain ⟨s, hs, hm⟩ := token?_delimiter h
    obtain ⟨r, hr⟩ := Option.isSome_iff_exists.mp hm
    exact absurd (List.append_eq_nil_iff.mp (Text.after?_eq_some_iff.mp hr).symm).1 (hx s hs)

theorem Regular.token?_of_isBlank (hx : x.Regular) {c : Char} (hc : isBlank c = true) (t : Text) :
    x.token? (c :: t) = none := by
  cases h : x.token? (c :: t) with
  | none => rfl
  | some tok =>
    obtain ⟨s, hs, hm⟩ := token?_delimiter h
    exact absurd (hc.symm.trans (hx.unbroken.startsWith hs hm)) (by simp)

theorem Regular.after?_trimEnd (hx : x.Regular) {s : Text} (hs : s ∈ x.delimiters) (t : Text) :
    Text.after? s t.trimEnd = (Text.after? s t).map Text.trimEnd := by
  cases h : Text.after? s t with
  | none =>
    obtain ⟨b, -, hb⟩ := Text.exists_trimEnd_append t
    exact Text.after?_eq_none_of_append (b := b) (by rw [hb]; exact h)
  | some r =>
    rw [Text.after?_eq_some_iff] at h
    rw [h, Option.map_some, Text.after?_eq_some_iff]
    have hend : s.trimEnd = s := Text.trimEnd_eq_self_of_getLast? fun c hc =>
      ((hx s hs).2 c (List.mem_of_getLast? hc)).1
    cases hr : r.isBlank with
    | true => rw [Text.trimEnd_append_of_blank s hr, hend, Text.trimEnd_eq_nil_iff.mpr hr, List.append_nil]
    | false => exact Text.trimEnd_append_of_not_blank s hr

theorem Regular.startsWith_trimEnd (hx : x.Regular) {s : Text} (hs : s ∈ x.delimiters) (t : Text) :
    t.trimEnd.startsWith s = t.startsWith s := by
  rw [Text.startsWith, hx.after?_trimEnd hs, Option.isSome_map, Text.startsWith]

theorem Regular.isDocMarker_trimEnd (hx : x.Regular) {s : Text} (hs : s ∈ x.delimiters) (t : Text) :
    isDocMarker s t.trimEnd = isDocMarker s t := by
  rw [isDocMarker, isDocMarker, hx.after?_trimEnd hs]
  cases Text.after? s t with
  | none => rfl
  | some r =>
    have hhead (c : Char) (hc : isBlank c = false) :
        (r.trimEnd.head? != some c) = (r.head? != some c) := by
      by_cases hr : r.head? = some c
      · obtain ⟨b, hb, hrb⟩ := Text.exists_trimEnd_append r
        cases ht : r.trimEnd with
        | nil =>
          rw [ht, List.nil_append] at hrb
          rw [← hrb] at hr
          have := Text.isBlank_iff.mp hb c (List.mem_of_head? hr)
          exact absurd (hc.symm.trans this) Bool.false_ne_true
        | cons a as =>
          have := Text.head?_trimEnd (t := r) (c := a) (by rw [ht]; rfl)
          rw [this]
          rfl
      · have : r.trimEnd.head? ≠ some c := fun h => hr (Text.head?_trimEnd h)
        rw [bne_iff_ne.mpr hr, bne_iff_ne.mpr this]
    simp only [Option.map_some, hhead '/' rfl, hhead '*' rfl]

theorem Regular.token?_trimEnd (hx : x.Regular) (t : Text) : x.token? t.trimEnd = x.token? t := by
  have hline : x.lineToken? t.trimEnd = x.lineToken? t := by
    rw [lineToken?, lineToken?]
    congr 1
    · cases h : x.docLineComment with
      | none => rfl
      | some s => exact congrArg (· = true) (hx.isDocMarker_trimEnd (by simp [delimiters, h]) t)
    · congr 1
      cases h : x.lineComment with
      | none => rfl
      | some s => exact congrArg (· = true) (hx.startsWith_trimEnd (by simp [delimiters, h]) t)
  have hblock : x.blockToken? t.trimEnd = x.blockToken? t := by
    rw [blockToken?, blockToken?]
    cases hb : x.blockComment with
    | none => rfl
    | some b =>
      have hdoc : x.docBlockOpener.any (isDocMarker · t.trimEnd) =
          x.docBlockOpener.any (isDocMarker · t) := by
        cases h : x.docBlockOpener with
        | none => rfl
        | some s => exact hx.isDocMarker_trimEnd (by simp [delimiters, h]) t
      simp only [hx.startsWith_trimEnd (blockOpener_mem (show _ = some (b.1, b.2) from hb)) t, hdoc]
  have hlit : x.literals.find? (t.trimEnd.startsWith ·.opener) =
      x.literals.find? (t.startsWith ·.opener) := by
    rw [← List.head?_filter, ← List.head?_filter,
      List.filter_congr fun d hd => hx.startsWith_trimEnd (opener_mem hd) t]
  rw [token?, token?, hline, hblock, hlit]

end CleanCopy.Lexicon
