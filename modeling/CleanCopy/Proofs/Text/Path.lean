import CleanCopy.Proofs.Text.Lines
import CleanCopy.Proofs.Text.Order

namespace CleanCopy

/-- A text that names an entry of a directory. -/
structure Text.IsName (n : Text) : Prop where
  ne_nil : n ≠ []
  no_slash : '/' ∉ n
  ne_here : n ≠ ['.']
  ne_up : n ≠ ['.', '.']

theorem Text.isName_iff {n : Text} :
    n.IsName ↔ n ≠ [] ∧ '/' ∉ n ∧ n ≠ ['.'] ∧ n ≠ ['.', '.'] :=
  ⟨fun h => ⟨h.1, h.2, h.3, h.4⟩, fun h => ⟨h.1, h.2.1, h.2.2.1, h.2.2.2⟩⟩

/-- What stands between slashes and is no name is nothing, or one or two points. -/
theorem Text.eq_of_not_isName {s : Text} (hs : '/' ∉ s) (h : ¬ s.IsName) :
    s = [] ∨ s = ['.'] ∨ s = ['.', '.'] := by
  by_contra hne
  rw [not_or, not_or] at hne
  exact h ⟨hne.1, hs, hne.2.1, hne.2.2⟩

instance (n : Text) : Decidable n.IsName := decidable_of_iff _ Text.isName_iff.symm

theorem Component.ofSegment?_of_isName {n : Text} (h : n.IsName) :
    Component.ofSegment? n = some (.name n) := by
  match n with
  | [] => exact absurd rfl h.ne_nil
  | ['.'] => exact absurd rfl h.ne_here
  | ['.', '.'] => exact absurd rfl h.ne_up
  | [c] => simp [ofSegment?, show c ≠ '.' from fun hc => h.ne_here (by rw [hc])]
  | [c, e] =>
    have : ¬ (c = '.' ∧ e = '.') := fun hc => h.ne_up (by rw [hc.1, hc.2])
    unfold ofSegment?
    split <;> simp_all
  | c :: e :: f :: cs =>
    unfold ofSegment?
    split <;> simp_all

namespace Component

variable {s t : Text}

theorem text_of_ofSegment? {c : Component} (h : ofSegment? s = some c) : c.text = s := by
  rw [ofSegment?.eq_def] at h
  split at h <;> cases h <;> rfl

theorem ofSegment?_eq_none_iff : ofSegment? s = none ↔ s = [] ∨ s = ['.'] := by
  constructor
  · intro h
    rw [ofSegment?.eq_def] at h
    split at h <;> simp_all
  · rintro (rfl | rfl) <;> rfl

theorem ofSegment?_inj (h : ofSegment? s = ofSegment? t) (hs : s ≠ [] ∧ s ≠ ['.']) : s = t := by
  cases hc : ofSegment? s with
  | none => exact absurd (ofSegment?_eq_none_iff.mp hc) (not_or.mpr hs)
  | some c => rw [← text_of_ofSegment? hc, text_of_ofSegment? (h.symm.trans hc)]

theorem isName_of_ofSegment? (hs : '/' ∉ s) (h : ofSegment? s = some (.name t)) : t.IsName := by
  obtain rfl : t = s := text_of_ofSegment? h
  refine ⟨?_, hs, ?_, ?_⟩ <;> rintro rfl <;> cases h

end Component

namespace Path

theorem splitOn_append (a b : Text) :
    Text.splitOn '/' (a ++ '/' :: b) = Text.splitOn '/' a ++ Text.splitOn '/' b := by
  induction a with
  | nil => simp [Text.splitOn]
  | cons c cs ih =>
    rw [List.cons_append, Text.splitOn, Text.splitOn, ih]
    split
    · rfl
    · cases h : Text.splitOn '/' cs with
      | nil =>
        rw [Text.splitOn_eq_splitOn] at h
        exact absurd h (List.splitOn_ne_nil _ _)
      | cons piece pieces => rfl

theorem splitOn_of_notMem {n : Text} (h : '/' ∉ n) : Text.splitOn '/' n = [n] := by
  induction n with
  | nil => rfl
  | cons c cs ih =>
    rw [Text.splitOn, if_neg fun hc => h (by rw [hc]; exact List.mem_cons_self),
      ih fun hm => h (List.mem_cons_of_mem _ hm)]

theorem joinSegments_cons {s : Text} {ss : List Text} (h : ss ≠ []) :
    joinSegments (s :: ss) = s ++ '/' :: joinSegments ss := by
  cases ss with
  | nil => exact absurd rfl h
  | cons _ _ => rfl

theorem joinSegments_splitOn (t : Text) : joinSegments (Text.splitOn '/' t) = t := by
  induction t with
  | nil => rfl
  | cons c cs ih =>
    have hne : Text.splitOn '/' cs ≠ [] := by
      rw [Text.splitOn_eq_splitOn]
      exact List.splitOn_ne_nil _ _
    rw [Text.splitOn]
    split
    · rename_i hc
      rw [joinSegments_cons hne, ih, hc]
      rfl
    · cases h : Text.splitOn '/' cs with
      | nil => exact absurd h hne
      | cons piece pieces =>
        rw [h] at ih
        cases pieces with
        | nil => exact congrArg (c :: ·) ih
        | cons _ _ => exact congrArg (c :: ·) ih

theorem splitOn_joinSegments {ss : List Text} (hne : ss ≠ []) (h : ∀ s ∈ ss, '/' ∉ s) :
    Text.splitOn '/' (joinSegments ss) = ss := by
  induction ss with
  | nil => exact absurd rfl hne
  | cons s ss ih =>
    obtain ⟨hs, hss⟩ := List.forall_mem_cons.mp h
    by_cases hnil : ss = []
    · rw [hnil]
      exact splitOn_of_notMem hs
    · rw [joinSegments_cons hnil, splitOn_append, ih hnil hss, splitOn_of_notMem hs]
      rfl

theorem joinSegments_append {ss ts : List Text} (hs : ss ≠ []) (ht : ts ≠ []) :
    joinSegments (ss ++ ts) = joinSegments ss ++ '/' :: joinSegments ts := by
  induction ss with
  | nil => exact absurd rfl hs
  | cons s ss ih =>
    by_cases hnil : ss = []
    · rw [hnil]
      exact joinSegments_cons ht
    · rw [List.cons_append, joinSegments_cons (by simp [ht]), ih hnil, joinSegments_cons hnil,
        List.append_assoc]
      rfl

theorem notMem_segments (p : Path) : ∀ s ∈ p.segments, '/' ∉ s := by
  intro s hs
  rw [segments, Text.splitOn_eq_splitOn] at hs
  exact List.notMem_of_mem_splitOn hs

theorem splitLead_text (t : Text) :
    ((splitLead t).1.map Component.text).getD [] ++ (splitLead t).2 = t := by
  unfold splitLead
  split <;> rfl

theorem splitLead_append {t : Text} (h : t ≠ []) (b : Text) :
    splitLead (t ++ '/' :: b) = ((splitLead t).1, (splitLead t).2 ++ '/' :: b) := by
  match t with
  | [] => exact absurd rfl h
  | [c] =>
    by_cases hs : c = '/'
    · rw [hs]; rfl
    · by_cases hd : c = '.'
      · rw [hd]; rfl
      · simp [splitLead, hs, hd]
  | c :: e :: cs =>
    by_cases hs : c = '/'
    · rw [hs]; rfl
    · by_cases hd : c = '.' ∧ e = '/'
      · rw [hd.1, hd.2]; rfl
      · unfold splitLead
        split <;> split <;> simp_all

theorem splitLead_of_isName {n : Text} (h : '/' ∉ n) (hd : n ≠ ['.']) : splitLead n = (none, n) := by
  unfold splitLead
  split <;> simp_all

theorem withSegments_segments (p : Path) : p.withSegments p.segments = p := by
  rw [withSegments, segments, joinSegments_splitOn, lead, splitLead_text]

/-- Some of the first stretches make a path with the same lead. -/
theorem withSegments_spelling {p : Path} {ss ts : List Text} (h : p.segments = ss ++ ts)
    (hne : ss ≠ []) :
    (p.withSegments ss).lead = p.lead ∧ (p.withSegments ss).segments = ss := by
  by_cases hnil : ts = []
  · rw [hnil, List.append_nil] at h
    rw [← h, withSegments_segments]
    exact ⟨rfl, rfl⟩
  · let front : Text := (p.lead.map Component.text).getD [] ++ joinSegments ss
    have htext : p.text = front ++ '/' :: joinSegments ts := by
      have := congrArg Path.text (withSegments_segments p)
      rw [withSegments, h, joinSegments_append hne hnil, ← List.append_assoc] at this
      exact this.symm
    have hfront : front ≠ [] := by
      intro hf
      have hlead : p.lead = some .root := by rw [lead, htext, hf]; rfl
      simp [front, hlead, Component.text] at hf
    have hlead : (p.withSegments ss).lead = p.lead := by
      have : p.lead = (splitLead front).1 := by rw [lead, htext, splitLead_append hfront]
      rw [this]
      rfl
    refine ⟨hlead, ?_⟩
    have hbody : (splitLead front).2 = joinSegments ss := by
      have := splitLead_text front
      rw [show (splitLead front).1 = p.lead from hlead] at this
      exact List.append_cancel_left this
    change Text.splitOn '/' (splitLead front).2 = ss
    rw [hbody, splitOn_joinSegments hne]
    exact fun s hs => notMem_segments p s (h ▸ List.mem_append_left _ hs)

/-- The stretches of a path that stand before a name joined to it. -/
def trunk (p : Path) : List Text :=
  if p.text.isEmpty || p.text.getLast? = some '/' then p.segments.dropLast else p.segments

theorem isAbsolute_of_notMem {n : Text} (h : '/' ∉ n) : isAbsolute ⟨n⟩ = false := by
  rw [isAbsolute, lead, decide_eq_false_iff_not]
  unfold splitLead
  split <;> simp_all

variable {p : Path} {n : Text}

/-- A name stands behind the trunk, and the lead stays. -/
theorem join_spelling (hn : '/' ∉ n) (h : p.text ≠ [] ∨ n ≠ ['.']) :
    (p.join ⟨n⟩).lead = p.lead ∧ (p.join ⟨n⟩).segments = p.trunk ++ [n] := by
  obtain ⟨t⟩ := p
  rw [join, isAbsolute_of_notMem hn, if_neg Bool.false_ne_true]
  by_cases he : t = []
  · subst he
    have hd : n ≠ ['.'] := h.resolve_left fun hne => hne rfl
    have hlead := splitLead_of_isName hn hd
    constructor
    · change (splitLead n).1 = none
      rw [hlead]
    · change Text.splitOn '/' (splitLead n).2 = [n]
      rw [hlead, splitOn_of_notMem hn]
  · have hemp : t.isEmpty = false := List.isEmpty_eq_false_iff.mpr he
    by_cases hl : t.getLast? = some '/'
    · obtain ⟨s, rfl⟩ := List.getLast?_eq_some_iff.mp hl
      simp only [hemp, Bool.false_or, trunk, hl, decide_true, if_true]
      rw [List.append_assoc, List.singleton_append]
      by_cases hs : s = []
      · subst hs
        exact ⟨rfl, splitOn_of_notMem hn⟩
      · simp only [lead, segments, splitLead_append hs, splitOn_append, splitOn_of_notMem hn]
        exact ⟨trivial, by simp [Text.splitOn]⟩
    · simp only [hemp, Bool.false_or, trunk, hl, decide_false, Bool.false_eq_true, if_false]
      simp only [lead, segments, splitLead_append he, splitOn_append, splitOn_of_notMem hn]
      exact ⟨trivial, trivial⟩

theorem segments_eq_trunk (p : Path) : p.segments = p.trunk ∨ p.segments = p.trunk ++ [[]] := by
  obtain ⟨t⟩ := p
  by_cases he : t = []
  · subst he
    exact .inr rfl
  · have hemp : t.isEmpty = false := List.isEmpty_eq_false_iff.mpr he
    by_cases hl : t.getLast? = some '/'
    · right
      obtain ⟨s, rfl⟩ := List.getLast?_eq_some_iff.mp hl
      simp only [hemp, Bool.false_or, trunk, hl, decide_true, if_true]
      by_cases hs : s = []
      · subst hs
        rfl
      · simp only [segments, splitLead_append hs, splitOn_append, Text.splitOn, List.dropLast_concat]
    · left
      simp only [hemp, Bool.false_or, trunk, hl, decide_false, Bool.false_eq_true, if_false]

end Path

end CleanCopy
