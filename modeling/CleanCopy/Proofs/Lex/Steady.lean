import CleanCopy.Proofs.Lex.Opening
import CleanCopy.Proofs.Lex.Tightening

namespace CleanCopy.Lexicon

/-- Delimiters without gaps and punctuation, of which a documentation marker begins like another
comment and is decided on before the shortest block comment ends. -/
structure Firm (x : Lexicon) : Prop where
  firm : ∀ s ∈ x.delimiters, ∀ c ∈ s, isFirm c = true
  line : ∀ m ∈ x.docLineComment, ∃ l ∈ x.lineComment, l <+: m
  block : ∀ m ∈ x.docBlockOpener, ∀ b ∈ x.blockComment, m.length < b.1.length + b.2.length

theorem isFirm_of_all {x : Lexicon} (h : x.delimiters.all (·.all isFirm) = true) :
    ∀ s ∈ x.delimiters, ∀ c ∈ s, isFirm c = true :=
  fun s hs => List.all_eq_true.mp (List.all_eq_true.mp h s hs)

theorem plain_firm : plain.Firm := ⟨isFirm_of_all (by decide), nofun, nofun⟩

theorem cSharp_firm : cSharp.Firm where
  firm := isFirm_of_all (by decide)
  line m hm := by
    obtain rfl := Option.some.inj hm
    exact ⟨['/', '/'], rfl, by decide⟩
  block m hm b hb := by
    obtain rfl := Option.some.inj hm
    obtain rfl := Option.some.inj hb
    decide

theorem typeScript_firm : typeScript.Firm where
  firm := isFirm_of_all (by decide)
  line := nofun
  block m hm b hb := by
    obtain rfl := Option.some.inj hm
    obtain rfl := Option.some.inj hb
    decide

theorem python_firm : python.Firm := ⟨isFirm_of_all (by decide), nofun, nofun⟩

variable {x : Lexicon} {r r' s t : Text}

theorem isDocMarker_append {m : Text} (h : m.length < s.length) (r : Text) :
    isDocMarker m (s ++ r) = isDocMarker m s := by
  rw [isDocMarker, isDocMarker, Text.after?_append h.le]
  cases hs : Text.after? m s with
  | none => rfl
  | some u =>
    have hu : u ≠ [] := by
      rintro rfl
      rw [Text.after?_eq_some_iff, List.append_nil] at hs
      exact absurd h (hs ▸ Nat.lt_irrefl _)
    simp only [Option.map_some, List.head?_append_of_ne_nil _ hu]

theorem startsWith_append {m : Text} (h : m.length ≤ s.length) (r : Text) :
    Text.startsWith (s ++ r) m = s.startsWith m := by
  rw [Text.startsWith, Text.after?_append h, Option.isSome_map, Text.startsWith]

namespace Firm

variable (hf : x.Firm)
include hf

/-- No delimiter comes about at the front of what leads like another text. -/
theorem isPrefix (h : r.Leads r') (hs : s ∈ x.delimiters) (hp : s <+: r') : s <+: r :=
  h.isPrefix (hf.firm s hs) hp

theorem lineToken? (h : r.Leads r') (hn : x.lineToken? r = none) : x.lineToken? r' = none := by
  rw [lineToken?_eq_none_iff] at hn ⊢
  have hline : ¬ ∃ m ∈ x.lineComment, m <+: r' := fun ⟨m, hm, hp⟩ =>
    hn.1 ⟨m, hm, hf.isPrefix h (by simp [delimiters, Option.mem_def.mp hm]) hp⟩
  refine ⟨hline, ?_⟩
  rintro ⟨m, hm, u, rfl, -⟩
  obtain ⟨l, hl, hp⟩ := hf.line m hm
  exact hline ⟨l, hl, hp.trans (List.prefix_append m u)⟩

theorem blockToken? (h : r.Leads r') (hn : x.blockToken? r = none) : x.blockToken? r' = none := by
  rw [blockToken?_eq_none_iff] at hn ⊢
  exact fun ⟨b, hb, hp⟩ => hn ⟨b, hb, hf.isPrefix h (blockOpener_mem hb) hp⟩

theorem startsWith (h : r.Leads r') (hs : s ∈ x.delimiters) (hn : r.startsWith s = false) :
    r'.startsWith s = false := by
  rw [Bool.eq_false_iff, Ne, Text.startsWith_iff] at hn ⊢
  exact fun hp => hn (hf.isPrefix h hs hp)

/-- A block comment that is closed before the change is of the same class after it. -/
theorem blockToken?_append {cls : CommentClass} {opener : Text}
    (hlen : opener.length + x.blockCloser.length ≤ s.length)
    (h : x.blockToken? (s ++ r) = some (.blockComment cls opener)) :
    x.blockToken? (s ++ r') = some (.blockComment cls opener) := by
  obtain ⟨_, _, closer, he, hb, -⟩ := blockToken?_eq_some h
  obtain ⟨rfl, rfl⟩ := Token.blockComment.inj he
  rw [(blockCloser_mem hb).1] at hlen
  have hdoc (u : Text) : x.docBlockOpener.any (isDocMarker · (s ++ u)) =
      x.docBlockOpener.any (isDocMarker · s) := by
    cases hm : x.docBlockOpener with
    | none => rfl
    | some m =>
      have : m.length < opener.length + closer.length := hf.block m hm _ hb
      exact isDocMarker_append (by omega) u
  simp only [Lexicon.blockToken?, hb, startsWith_append (show opener.length ≤ s.length by omega),
    hdoc] at h ⊢
  exact h

theorem allows (h : r.Leads r') : x.Allows r r' where
  clear c s hn := by
    have hl := h.append_left (c :: s)
    rw [token?_eq_none_iff_parts] at hn ⊢
    obtain ⟨hline, hblock, hlit⟩ := hn
    refine ⟨hf.lineToken? hl hline, hf.blockToken? hl hblock, ?_⟩
    rw [List.find?_eq_none] at hlit ⊢
    intro d hd
    have hstart := hlit d hd
    rw [Bool.not_eq_true] at hstart ⊢
    exact hf.startsWith hl (opener_mem hd) hstart
  block s cls opener ht hlen := by
    rw [token?_eq_block_iff] at ht ⊢
    exact ⟨hf.lineToken? (h.append_left s) ht.1, hf.blockToken?_append hlen ht.2⟩
  literal s d ht hlen := by
    rw [token?_eq_literal_iff, List.find?_eq_some_iff_append] at ht ⊢
    have hl := h.append_left s
    obtain ⟨hline, hblock, hopens, ds, es, hds, hother⟩ := ht
    refine ⟨hf.lineToken? hl hline, hf.blockToken? hl hblock, ?_, ds, es, hds, fun d' hd' => ?_⟩
    · rw [startsWith_append (by omega)] at hopens ⊢
      exact hopens
    · have hmem : d'.opener ∈ x.delimiters := opener_mem (hds ▸ List.mem_append_left _ hd')
      have hother := hother d' hd'
      rw [Bool.not_eq_true'] at hother ⊢
      exact hf.startsWith hl hmem hother
  doubled d hd _ hn := hf.startsWith h (closer_mem hd) hn

theorem steady (hx : x.Regular) (hs : x.Simple) : x.Steady where
  regular := hx
  simple := hs
  allows := hf.allows
  inert c t hc := by
    cases ht : x.token? (c :: t) with
    | none => rfl
    | some tok =>
      obtain ⟨s, hs, hp⟩ := token?_delimiter ht
      obtain ⟨u, hu⟩ := Text.startsWith_iff.mp hp
      cases s with
      | nil => exact absurd rfl (hx _ hs).1
      | cons a s =>
        obtain ⟨rfl, -⟩ := List.cons.inj hu
        have := hf.firm _ hs a List.mem_cons_self
        rw [Text.isFirm_of_isPunctuation hc] at this
        cases this

end Firm

theorem plain_steady : plain.Steady := plain_firm.steady (by decide) (by decide)

theorem cSharp_steady : cSharp.Steady := cSharp_firm.steady cSharp_regular (by decide)

theorem typeScript_steady : typeScript.Steady :=
  typeScript_firm.steady typeScript_regular (by decide)

theorem python_steady : python.Steady := python_firm.steady python_regular (by decide)

end CleanCopy.Lexicon
