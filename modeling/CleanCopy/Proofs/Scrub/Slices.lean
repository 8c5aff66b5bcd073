import CleanCopy.Proofs.Scrub.Block

namespace CleanCopy

namespace Text

variable {a b c t : Text} {s : Span} {spans : List Span}

theorem slice?_append (a b c : Text) :
    (a ++ (b ++ c)).slice? a.byteSize (a.byteSize + b.byteSize) = some b := by
  rw [slice?, if_pos (Nat.le_add_right ..)]
  simp only [splitAtByte?_append, Nat.add_sub_cancel_left, Option.bind_eq_bind, Option.bind_some]
  rfl

theorem slice?_subset {start stop : Nat} {u : Text} (h : t.slice? start stop = some u) : u ⊆ t := by
  rw [slice?] at h
  split at h
  · obtain ⟨⟨a, rest⟩, ha, h⟩ := Option.bind_eq_some_iff.mp h
    obtain ⟨⟨b, c⟩, hb, h⟩ := Option.bind_eq_some_iff.mp h
    obtain rfl := Option.some.inj h
    obtain ⟨rfl, -⟩ := append_of_splitAtByte? ha
    obtain ⟨rfl, -⟩ := append_of_splitAtByte? hb
    exact List.subset_append_of_subset_right a (List.subset_append_left b c)
  · cases h

theorem sliceBefore?_subset {cursor stop : Nat} {u : Text}
    (h : t.sliceBefore? cursor stop = some u) : u ⊆ t := by
  rw [sliceBefore?] at h
  split at h
  · exact slice?_subset h
  · obtain rfl := Option.some.inj h
    exact List.nil_subset t

theorem remainder?_subset {cursor : Nat} {u : Text} (h : t.remainder? cursor spans = some u) :
    u ⊆ t := by
  induction spans generalizing cursor u with
  | nil => exact slice?_subset h
  | cons s ss ih =>
    obtain ⟨kept, hkept, h⟩ := Option.bind_eq_some_iff.mp h
    obtain ⟨rest, hrest, h⟩ := Option.bind_eq_some_iff.mp h
    obtain rfl := Option.some.inj h
    exact List.append_subset.mpr ⟨sliceBefore?_subset hkept, ih hrest⟩

theorem sliceBefore?_append (a b c : Text) :
    (a ++ (b ++ c)).sliceBefore? a.byteSize (a.byteSize + b.byteSize) = some b := by
  rw [sliceBefore?]
  split
  · exact slice?_append a b c
  · rename_i hb
    cases b with
    | nil => rfl
    | cons d ds =>
      have := byteSize_pos (List.cons_ne_nil d ds)
      omega

/-- Spans that cut a text between characters, each behind the one before it. -/
structure Spanned (t : Text) (spans : List Span) : Prop where
  ordered : ∀ s ∈ spans, s.start ≤ s.stop
  apart : spans.Pairwise fun s s' => s.stop ≤ s'.start
  start : ∀ s ∈ spans, t.IsBoundary s.start
  stop : ∀ s ∈ spans, t.IsBoundary s.stop

theorem spanned_iff : t.Spanned spans ↔
    (∀ s ∈ spans, s.start ≤ s.stop ∧ t.IsBoundary s.start ∧ t.IsBoundary s.stop) ∧
      spans.Pairwise fun s s' => s.stop ≤ s'.start :=
  ⟨fun h => ⟨fun s hs => ⟨h.ordered s hs, h.start s hs, h.stop s hs⟩, h.apart⟩,
    fun ⟨h, hp⟩ => ⟨fun s hs => (h s hs).1, hp, fun s hs => (h s hs).2.1, fun s hs => (h s hs).2.2⟩⟩

instance (t : Text) (spans : List Span) : Decidable (t.Spanned spans) :=
  decidable_of_iff _ spanned_iff.symm

theorem Spanned.nil (t : Text) : t.Spanned [] :=
  ⟨List.forall_mem_nil _, .nil, List.forall_mem_nil _, List.forall_mem_nil _⟩

theorem spanned_cons : t.Spanned (s :: spans) ↔
    (∃ u v w, t = u ++ (v ++ w) ∧ s = ⟨u.byteSize, u.byteSize + v.byteSize⟩) ∧
      (∀ s' ∈ spans, s.stop ≤ s'.start) ∧ t.Spanned spans := by
  rw [spanned_iff, spanned_iff, List.forall_mem_cons, List.pairwise_cons]
  constructor
  · rintro ⟨⟨⟨hle, ⟨u, q, rfl, hu⟩, ⟨p, w, hp, hv⟩⟩, h⟩, hapart, hpair⟩
    refine ⟨?_, hapart, h, hpair⟩
    obtain ⟨v, rfl⟩ := isPrefix_of_byteSize_le hp (by omega)
    rw [List.append_assoc, List.append_cancel_left_eq] at hp
    refine ⟨u, v, w, by rw [hp], ?_⟩
    rw [byteSize_append] at hv
    rw [hv, hu]
  · rintro ⟨⟨u, v, w, rfl, rfl⟩, hapart, h, hpair⟩
    refine ⟨⟨⟨Nat.le_add_right .., ⟨u, v ++ w, rfl, rfl⟩, ⟨u ++ v, w, ?_, ?_⟩⟩, h⟩, hapart, hpair⟩
    · rw [List.append_assoc]
    · exact byteSize_append u v

/-- Between spans that fit, no slice is out of bounds, and together they are what no span covers. -/
theorem Spanned.remainder?_eq (h : (a ++ b).Spanned spans) (hle : ∀ s ∈ spans, a.byteSize ≤ s.start) :
    (a ++ b).remainder? a.byteSize spans = some (outside spans a.byteSize b) := by
  induction spans generalizing a b with
  | nil =>
    have := slice?_append a b []
    rw [List.append_nil, ← byteSize_append] at this
    rw [remainder?, this, outside_of_apart (by simp)]
  | cons s ss ih =>
    obtain ⟨⟨p, v, w, hp, hs⟩, hapart, hss⟩ := spanned_cons.mp h
    obtain ⟨hstart, hstop⟩ := Span.mk.inj hs
    -- What is behind the cursor is kept up to the span, covered by it, and left to the spans after it.
    have hcursor : a.byteSize ≤ p.byteSize := hstart ▸ hle s List.mem_cons_self
    obtain ⟨u, rfl⟩ := isPrefix_of_byteSize_le hp hcursor
    rw [List.append_assoc, List.append_cancel_left_eq] at hp
    subst hp
    have hu : s.start = a.byteSize + Text.byteSize u := hstart.trans (byteSize_append a u)
    have hv : s.stop = s.start + v.byteSize := by rw [hstop, hstart]
    have hbehind : s.stop = (a ++ u ++ v).byteSize := by
      simp only [byteSize_append, hv, hu]
    have hwhole : a ++ (u ++ (v ++ w)) = a ++ u ++ v ++ w := by simp only [List.append_assoc]
    have hrest := ih (hwhole ▸ hss) (hbehind ▸ hapart)
    rw [← hwhole, ← hbehind] at hrest
    rw [remainder?, Nat.max_eq_right (by omega), hrest, outside_cut hu hv hapart, hu,
      sliceBefore?_append]
    rfl

/-- The parts of spans in a stretch of a text fit the stretch. -/
theorem Spanned.within (h : (a ++ (b ++ c)).Spanned spans) :
    b.Spanned ((spans.filter (·.touches a.byteSize b.byteSize)).map
      (·.within a.byteSize b.byteSize)) := by
  have hmem {s : Span} (hs : s ∈ spans.filter (·.touches a.byteSize b.byteSize)) :
      s ∈ spans ∧ s.start - a.byteSize ≤ b.byteSize ∧ s.start ≤ s.stop := by
    obtain ⟨hs, htouch⟩ := List.mem_filter.mp hs
    simp only [Span.touches, Bool.and_eq_true, decide_eq_true_eq] at htouch
    exact ⟨hs, by omega, h.ordered s hs⟩
  constructor
  case ordered =>
    intro s' hs'
    obtain ⟨s, hs, rfl⟩ := List.mem_map.mp hs'
    have := hmem hs
    simp only [Span.within]
    omega
  case apart =>
    rw [List.pairwise_map]
    refine (h.apart.filter _).imp fun {s s'} hle => ?_
    simp only [Span.within]
    omega
  case start =>
    intro s' hs'
    obtain ⟨s, hs, rfl⟩ := List.mem_map.mp hs'
    obtain ⟨hs, hstart, -⟩ := hmem hs
    have := (h.start s hs).within
    rwa [Nat.min_eq_left hstart] at this
  case stop =>
    intro s' hs'
    obtain ⟨s, hs, rfl⟩ := List.mem_map.mp hs'
    exact (h.stop s (hmem hs).1).within

theorem outside_within (spans : List Span) (offset : Nat) (t : Text) :
    outside ((spans.filter (·.touches offset t.byteSize)).map (·.within offset t.byteSize)) 0 t =
      outside spans offset t := by
  refine outside_congr fun n hn => ?_
  rw [List.any_map, List.any_filter]
  refine List.any_congr rfl fun s => ?_
  rw [Bool.eq_iff_iff]
  simp only [Function.comp_apply, Span.touches, Span.within, Span.covers, Bool.and_eq_true,
    decide_eq_true_eq]
  omega

theorem spanned_blockSpans_append (opener closer : Text) (keep : Text → Bool) (pre t : Text) :
    (pre ++ t).Spanned (blockSpans opener closer keep pre.byteSize t) := by
  generalize ho : pre.byteSize = offset
  fun_induction blockSpans opener closer keep offset t generalizing pre with
  | case1 => exact .nil _
  | case2 => exact .nil _
  | case3 offset t before inside h start bodyStart h' hkeep =>
    refine spanned_cons.mpr ⟨⟨pre ++ before, opener ++ inside, [], ?_, ?_⟩,
      List.forall_mem_nil _, .nil _⟩
    · rw [← cut?_append h]
      simp
    · simp only [byteSize_append, ho, Nat.add_assoc, start, bodyStart]
  | case4 offset t before inside h start bodyStart body rest h' stop hlt hkeep ih =>
    rw [← append_comment h h', ← List.append_assoc, ← List.append_assoc]
    exact ih _ (by simp only [byteSize_append, ho, Nat.add_assoc, start, bodyStart, stop])
  | case5 offset t before inside h start bodyStart body rest h' stop hlt hkeep ih =>
    rw [← append_comment h h', ← List.append_assoc, ← List.append_assoc]
    refine spanned_cons.mpr ⟨⟨pre ++ before, opener ++ body ++ closer, rest, ?_, ?_⟩,
      fun s hs => le_start_of_mem_blockSpans hs,
      ih _ (by simp only [byteSize_append, ho, Nat.add_assoc, start, bodyStart, stop])⟩
    · exact List.append_assoc ..
    · simp only [byteSize_append, ho, Nat.add_assoc, start, bodyStart, stop]
  | case6 => exact .nil _

theorem spanned_blockSpans (opener closer : Text) (keep : Text → Bool) (t : Text) :
    t.Spanned (blockSpans opener closer keep 0 t) :=
  spanned_blockSpans_append opener closer keep [] t

end Text

namespace Line

variable {spans : List Span} {a b : Text}

theorem render_eq (l : Line) : l.render = l.text ++ if l.cr then ['\r'] else [] := by
  rw [render]
  split
  · rfl
  · exact (List.append_nil _).symm

/-- A line that is left is as it was, or it is trimmed and holds nothing new. -/
theorem mem_remainder? {offset : Nat} {l k : Line} {ks : List Line}
    (h : l.remainder? spans offset = some ks) (hk : k ∈ ks) :
    k = l ∨ ∃ kept : Text, kept ⊆ l.text ∧ k = l.withText kept.trimEnd := by
  rw [remainder?] at h
  split at h
  · obtain rfl := Option.some.inj h
    exact .inl (List.mem_singleton.mp hk)
  · obtain ⟨kept, hkept, h⟩ := Option.bind_eq_some_iff.mp h
    obtain rfl := Option.some.inj h
    split at hk
    · cases hk
    · exact .inr ⟨kept, Text.remainder?_subset hkept, List.mem_singleton.mp hk⟩

theorem mem_remainders? {offset : Nat} {k : Line} {ls ks : List Line}
    (h : remainders? spans offset ls = some ks) (hk : k ∈ ks) :
    ∃ l ∈ ls, k = l ∨ ∃ kept : Text, kept ⊆ l.text ∧ k = l.withText kept.trimEnd := by
  induction ls generalizing offset ks with
  | nil =>
    obtain rfl := Option.some.inj h
    cases hk
  | cons l ls ih =>
    obtain ⟨kept, hkept, h⟩ := Option.bind_eq_some_iff.mp h
    obtain ⟨rest, hrest, h⟩ := Option.bind_eq_some_iff.mp h
    obtain rfl := Option.some.inj h
    rcases List.mem_append.mp hk with hk | hk
    · exact ⟨l, List.mem_cons_self, mem_remainder? hkept hk⟩
    · obtain ⟨m, hm, hkeep⟩ := ih hrest hk
      exact ⟨m, List.mem_cons_of_mem l hm, hkeep⟩

/-- A line of a text that the spans fit. -/
theorem remainder?_eq {l : Line} (h : (a ++ (l.text ++ b)).Spanned spans) :
    l.remainder? spans a.byteSize = some (l.outside spans a.byteSize).toList := by
  have hkept : l.text.remainder? 0 _ = some _ :=
    h.within.remainder?_eq (a := []) fun _ _ => Nat.zero_le _
  rw [show Text.byteSize [] = 0 from rfl, Text.outside_within] at hkept
  rw [remainder?, outside]
  split
  · rename_i hnone
    rw [List.filter_eq_nil_iff, ← List.any_eq_false] at hnone
    rw [hnone]
    rfl
  · rename_i htouching
    have hany : spans.any (·.touches a.byteSize l.text.byteSize) = true := by
      rw [← Bool.not_eq_false, List.any_eq_false, ← List.filter_eq_nil_iff]
      exact htouching
    rw [hkept, hany, if_pos rfl]
    dsimp only [Option.bind_eq_bind, Option.bind_some]
    split <;> rfl

/-- Lines, each with the text before it, when `before` stands before the first. -/
def placed (before : Text) : List Line → List (Text × Line)
  | [] => []
  | l :: ls => (before, l) :: placed (before ++ (l.render ++ ['\n'])) ls

theorem byteSize_append_render (a : Text) (l : Line) :
    (a ++ (l.render ++ ['\n'])).byteSize = a.byteSize + l.byteSize := by
  rw [Text.byteSize_append, Text.byteSize_append, ← byteSize_render]
  rfl

/-- A placed line stands in the text behind what it is placed behind. -/
theorem append_of_mem_placed {ls : List Line} {p : Text × Line} (hp : p ∈ placed a ls)
    (closed : Bool) : ∃ e, a ++ Document.render ⟨ls, closed⟩ = p.1 ++ (p.2.render ++ e) := by
  induction ls generalizing a with
  | nil => cases hp
  | cons l ls ih =>
    rcases List.mem_cons.mp hp with rfl | hp
    · cases ls with
      | nil => exact ⟨_, congrArg (a ++ ·) (Document.render_singleton l closed)⟩
      | cons m ms => exact ⟨_, congrArg (a ++ ·) (Document.render_cons_cons l m ms closed)⟩
    · cases ls with
      | nil => cases hp
      | cons m ms =>
        obtain ⟨e, he⟩ := ih hp
        refine ⟨e, ?_⟩
        rw [← he, Document.render_cons_cons]
        simp only [List.append_assoc, List.cons_append, List.nil_append]

/-- The offset of each line is the size of what stands before it. -/
theorem remainders?_eq {ls : List Line} (h : ∀ p ∈ placed a ls,
      p.2.remainder? spans p.1.byteSize = some (p.2.outside spans p.1.byteSize).toList) :
    remainders? spans a.byteSize ls = some (outsideAll spans a.byteSize ls) := by
  induction ls generalizing a with
  | nil => rfl
  | cons l ls ih =>
    obtain ⟨hl, hls⟩ := List.forall_mem_cons.mp h
    have hrest := ih hls
    rw [byteSize_append_render] at hrest
    rw [remainders?, hl, hrest, outsideAll]
    rfl

theorem outsideAll_eq (ls : List Line) : outsideAll spans a.byteSize ls =
    ((placed a ls).map fun p => p.2.outside spans p.1.byteSize).reduceOption := by
  induction ls generalizing a with
  | nil => rfl
  | cons l ls ih =>
    rw [outsideAll, placed, List.map_cons, ← byteSize_append_render, ih]
    cases l.outside spans a.byteSize <;> rfl

end Line

namespace Document

variable {spans : List Span} {d : Document}

/-- The lines of a document, each with the text before it. -/
def placed (d : Document) : List (Text × Line) := Line.placed [] d.lines

theorem append_of_mem_placed {p : Text × Line} (hp : p ∈ d.placed) :
    ∃ e, d.render = p.1 ++ (p.2.render ++ e) := Line.append_of_mem_placed (a := []) hp d.closed

theorem append_text_of_mem_placed {p : Text × Line} (hp : p ∈ d.placed) :
    ∃ e, d.render = p.1 ++ (p.2.text ++ e) := by
  obtain ⟨e, he⟩ := append_of_mem_placed hp
  exact ⟨_, by rw [he, Line.render_eq, List.append_assoc]⟩

/-- Spans that fit what a document is written as are cut out of it without a slice out of bounds. -/
theorem removeSpans?_eq (h : d.render.Spanned spans) :
    d.removeSpans? spans = some (d.outside spans) := by
  have hlines : Line.remainders? spans 0 d.lines = some (Line.outsideAll spans 0 d.lines) := by
    refine Line.remainders?_eq (a := []) fun p hp => ?_
    obtain ⟨e, he⟩ := append_text_of_mem_placed hp
    exact Line.remainder?_eq (he ▸ h)
  rw [removeSpans?, hlines]
  rfl

theorem removeSpans_eq (h : d.render.Spanned spans) : d.removeSpans spans = d.outside spans := by
  rw [removeSpans, removeSpans?_eq h]
  rfl

theorem removeSpans_blockSpans_eq (opener closer : Text) (keep : Text → Bool) (t : Text) :
    (parse t).removeSpans (Text.blockSpans opener closer keep 0 t) =
      (parse t).outside (Text.blockSpans opener closer keep 0 t) :=
  removeSpans_eq ((render_parse t).symm ▸ Text.spanned_blockSpans opener closer keep t)

end Document

end CleanCopy
