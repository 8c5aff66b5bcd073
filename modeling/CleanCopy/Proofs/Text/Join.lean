import CleanCopy.Proofs.Text.Path

namespace CleanCopy.Path

variable {p q : Path} {n s t : Text} {ns : List Text}

theorem join_name (hn : n.IsName) :
    (p.join ⟨n⟩).lead = p.lead ∧ (p.join ⟨n⟩).segments = p.trunk ++ [n] :=
  join_spelling hn.no_slash (.inr hn.ne_here)

theorem text_join (hn : '/' ∉ n) :
    (p.join ⟨n⟩).text = if p.text.isEmpty || p.text.getLast? = some '/' then p.text ++ n
      else p.text ++ '/' :: n := by
  rw [join, isAbsolute_of_notMem hn, if_neg Bool.false_ne_true]
  split <;> rfl

theorem getLast?_join (hn : n.IsName) : (p.join ⟨n⟩).text.getLast? = n.getLast? := by
  rw [text_join hn.no_slash]
  split
  · exact List.getLast?_append_of_ne_nil _ hn.ne_nil
  · rw [List.getLast?_append_of_ne_nil _ (List.cons_ne_nil _ _)]
    obtain ⟨c, cs, rfl⟩ := List.exists_cons_of_ne_nil hn.ne_nil
    exact List.getLast?_cons_cons

theorem join_ne_nil (hn : n.IsName) : (p.join ⟨n⟩).text ≠ [] := by
  intro h
  have := getLast?_join (p := p) hn
  rw [h, List.getLast?_nil] at this
  exact hn.ne_nil (List.getLast?_eq_none_iff.mp this.symm)

theorem getLast?_join_ne (hn : n.IsName) : (p.join ⟨n⟩).text.getLast? ≠ some '/' := by
  rw [getLast?_join hn]
  exact fun h => hn.no_slash (List.mem_of_getLast? h)

theorem trunk_join (hn : n.IsName) : (p.join ⟨n⟩).trunk = p.trunk ++ [n] := by
  have hemp : (p.join ⟨n⟩).text.isEmpty = false := List.isEmpty_eq_false_iff.mpr (join_ne_nil hn)
  rw [trunk, hemp, Bool.false_or, if_neg (by simpa using getLast?_join_ne hn), (join_name hn).2]

theorem components_join_of_notMem (hn : '/' ∉ n) (h : p.text ≠ [] ∨ n ≠ ['.']) :
    (p.join ⟨n⟩).components = p.components ++ (Component.ofSegment? n).toList := by
  have htrunk : p.segments.filterMap Component.ofSegment? =
      p.trunk.filterMap Component.ofSegment? := by
    rcases p.segments_eq_trunk with h | h
    · rw [h]
    · rw [h, List.filterMap_append]
      simp [Component.ofSegment?]
  obtain ⟨hlead, hsegs⟩ := join_spelling hn h
  rw [components, components, hlead, hsegs, List.filterMap_append, htrunk, List.append_assoc]
  cases hn : Component.ofSegment? n <;> simp [hn]

/-- What a stretch makes of a path that it is joined to. -/
theorem components_join_stretch (hs : '/' ∉ s) : (p.join ⟨s⟩).components = p.components ++
    if p.text = [] ∧ s = ['.'] then [.here] else (Component.ofSegment? s).toList := by
  split
  · rename_i h
    obtain ⟨u⟩ := p
    obtain ⟨rfl, rfl⟩ := h
    rfl
  · rename_i h
    exact components_join_of_notMem hs (Decidable.not_and_iff_or_not.mp h)

/-- Each stretch but the empty one can be told from what it makes of a path. -/
theorem components_join_inj (hs : '/' ∉ s) (hs' : s ≠ []) (ht : '/' ∉ t) (ht' : t ≠ []) :
    (p.join ⟨s⟩).components = (p.join ⟨t⟩).components ↔ s = t := by
  have hspelled {s : Text} (hne : s ≠ []) :
      (((if p.text = [] ∧ s = ['.'] then [.here] else (Component.ofSegment? s).toList).head?.map
        Component.text).getD ['.']) = s := by
    split
    · rename_i h
      exact h.2.symm
    · cases hc : Component.ofSegment? s with
      | none => exact ((Component.ofSegment?_eq_none_iff.mp hc).resolve_left hne).symm
      | some c => exact Component.text_of_ofSegment? hc
  refine ⟨fun h => ?_, fun h => by rw [h]⟩
  rw [components_join_stretch hs, components_join_stretch ht, List.append_cancel_left_eq] at h
  rw [← hspelled hs', h, hspelled ht']

theorem components_join (hn : n.IsName) : (p.join ⟨n⟩).components = p.components ++ [.name n] := by
  rw [components_join_of_notMem hn.no_slash (.inr hn.ne_here), Component.ofSegment?_of_isName hn]
  rfl

theorem isName_of_fileName? (h : p.fileName? = some n) : n.IsName := by
  rw [fileName?] at h
  split at h
  · rename_i hlast
    obtain rfl := Option.some.inj h
    rcases List.mem_append.mp (List.mem_of_getLast? hlast) with hmem | hmem
    · rw [lead, splitLead.eq_def] at hmem
      split at hmem <;> simp at hmem
    · obtain ⟨s, hs, hname⟩ := List.mem_filterMap.mp hmem
      exact Component.isName_of_ofSegment? (notMem_segments p s hs) hname
  · cases h

theorem fileName?_join (hn : n.IsName) : (p.join ⟨n⟩).fileName? = some n := by
  rw [fileName?, components_join hn, List.getLast?_concat]

theorem dropIdle_append (ss : List Text) :
    ∃ ts, ss = dropIdle ss ++ ts ∧ ∀ t ∈ ts, Component.ofSegment? t = none := by
  induction ss with
  | nil => exact ⟨[], rfl, fun _ h => absurd h List.not_mem_nil⟩
  | cons s ss ih =>
    obtain ⟨ts, hss, hts⟩ := ih
    rw [dropIdle]
    split
    · rename_i hnil
      rw [hnil, List.nil_append] at hss
      cases hs : Component.ofSegment? s with
      | none => exact ⟨s :: ss, rfl, List.forall_mem_cons.mpr ⟨hs, hss ▸ hts⟩⟩
      | some c => exact ⟨ss, rfl, hss ▸ hts⟩
    · exact ⟨ts, by rw [List.cons_append, ← hss], hts⟩

theorem dropIdle_concat {s : Text} (h : Component.ofSegment? s ≠ none) (ss : List Text) :
    dropIdle (ss ++ [s]) = ss ++ [s] := by
  induction ss with
  | nil =>
    have : (Component.ofSegment? s).isNone = false := by
      cases hs : Component.ofSegment? s with
      | none => exact absurd hs h
      | some c => rfl
    simp [dropIdle, this]
  | cons a ss ih =>
    rw [List.cons_append, dropIdle, ih]
    cases hs : ss ++ [s] with
    | nil => simp at hs
    | cons _ _ => rfl

theorem ofSegment?_ne_none (hn : n.IsName) : Component.ofSegment? n ≠ none := by
  rw [Component.ofSegment?_of_isName hn]
  exact Option.some_ne_none _

theorem parent?_join (hn : n.IsName) :
    (p.join ⟨n⟩).parent? = some (p.withSegments (dropIdle p.trunk)) := by
  rw [parent?, (join_name hn).2, dropIdle_concat (ofSegment?_ne_none hn)]
  cases h : p.trunk ++ [n] with
  | nil => simp at h
  | cons s ss =>
    change some ((p.join ⟨n⟩).withSegments (dropIdle (s :: ss).dropLast)) = _
    rw [← h, List.dropLast_concat, withSegments, (join_name hn).1]
    rfl

/-- The directory around a name is the path that the name was joined to. -/
theorem parent?_join_join {m : Text} (hm : m.IsName) (hn : n.IsName) :
    ((p.join ⟨m⟩).join ⟨n⟩).parent? = some (p.join ⟨m⟩) := by
  rw [parent?_join hn, trunk_join hm, dropIdle_concat (ofSegment?_ne_none hm), ← (join_name hm).2,
    withSegments_segments]

theorem withExtension_join (hn : n.IsName) {ext : Text}
    (hm : Text.IsName (stemOf n ++ '.' :: ext)) :
    (p.join ⟨n⟩).withExtension ext = p.join ⟨stemOf n ++ '.' :: ext⟩ := by
  rw [withExtension, fileName?_join hn, (join_name hn).2, dropIdle_concat (ofSegment?_ne_none hn),
    List.dropLast_concat]
  change (p.join ⟨n⟩).withSegments (p.trunk ++ [stemOf n ++ '.' :: ext]) = _
  rw [← (join_name hm).2, withSegments, (join_name hn).1, ← (join_name (p := p) hm).1]
  exact withSegments_segments _

theorem isName_concat (h : ∀ n ∈ ns, n.IsName) (hn : n.IsName) : ∀ m ∈ ns ++ [n], m.IsName := by
  intro m hm
  rcases List.mem_append.mp hm with hm | hm
  · exact h m hm
  · rwa [List.mem_singleton.mp hm]

/-- A path with names joined to it in order. -/
def joinAll (p : Path) (ns : List Text) : Path := ns.foldl (fun p n => p.join ⟨n⟩) p

@[simp] theorem joinAll_nil (p : Path) : p.joinAll [] = p := rfl

theorem joinAll_concat (p : Path) (ns : List Text) (n : Text) :
    p.joinAll (ns ++ [n]) = (p.joinAll ns).join ⟨n⟩ := List.foldl_concat ..

theorem parent?_joinAll_join (hne : ns ≠ []) (h : ∀ m ∈ ns, m.IsName) (hn : n.IsName) :
    ((p.joinAll ns).join ⟨n⟩).parent? = some (p.joinAll ns) := by
  obtain ⟨ms, m, rfl⟩ := (List.eq_nil_or_concat' ns).resolve_left hne
  rw [joinAll_concat]
  exact parent?_join_join (h m (by simp)) hn

theorem length_le_text_joinAll (h : ∀ n ∈ ns, n.IsName) :
    ns.length ≤ (p.joinAll ns).text.length + 1 := by
  suffices ns.length ≤ (p.joinAll ns).text.length by omega
  induction ns using List.reverseRecOn with
  | nil => exact Nat.zero_le _
  | append_singleton ms m ih =>
    have hm := h m (by simp)
    have hlen := ih fun n hn => h n (List.mem_append_left _ hn)
    have hpos : 0 < m.length := List.length_pos_iff.mpr hm.ne_nil
    rw [joinAll_concat, text_join hm.no_slash]
    split <;> simp only [List.length_append, List.length_cons, List.length_nil] <;> omega

theorem lead_joinAll (h : ∀ n ∈ ns, n.IsName) : (p.joinAll ns).lead = p.lead := by
  induction ns generalizing p with
  | nil => rfl
  | cons n ns ih =>
    obtain ⟨hn, hns⟩ := List.forall_mem_cons.mp h
    exact (ih hns).trans (join_name hn).1

theorem components_joinAll (h : ∀ n ∈ ns, n.IsName) :
    (p.joinAll ns).components = p.components ++ ns.map .name := by
  induction ns generalizing p with
  | nil => simp
  | cons n ns ih =>
    obtain ⟨hn, hns⟩ := List.forall_mem_cons.mp h
    have := ih (p := p.join ⟨n⟩) hns
    rw [components_join hn, List.append_assoc] at this
    exact this

theorem fileName?_joinAll (h : ∀ n ∈ ns, n.IsName) (hne : ns ≠ []) :
    (p.joinAll ns).fileName? = ns.getLast? := by
  obtain ⟨ms, m, rfl⟩ := (List.eq_nil_or_concat' ns).resolve_left hne
  rw [joinAll_concat, fileName?_join (h m (by simp)), List.getLast?_concat]

theorem after_append (cs ds : List Component) : below?.after cs (cs ++ ds) = some ds := by
  induction cs with
  | nil => rfl
  | cons c cs ih => rw [List.cons_append, below?.after, if_pos rfl, ih]

theorem below?_joinAll (h : ∀ n ∈ ns, n.IsName) : (p.joinAll ns).below? p = some (ns.map .name) := by
  rw [below?, components_joinAll h, after_append]

theorem stepsTo_append (cs ds : List Component) : stepsTo false (cs ++ ds) cs = some ds := by
  induction cs with
  | nil => cases ds <;> rfl
  | cons c cs ih =>
    rw [List.cons_append, stepsTo]
    simp only [Bool.not_false, Bool.true_and, decide_true, if_true]
    exact ih

/-- The way from a directory to what lies below it is spelled by the names in between. -/
theorem relativeTo?_joinAll (h : ∀ n ∈ ns, n.IsName) :
    (p.joinAll ns).relativeTo? p = some (joinAll ⟨[]⟩ ns) := by
  rw [relativeTo?, isAbsolute, isAbsolute, lead_joinAll h, if_pos rfl, components_joinAll h,
    stepsTo_append, Option.map_some, ofComponents, List.foldl_map]
  rfl

theorem nil_join (hn : '/' ∉ n) : join ⟨[]⟩ ⟨n⟩ = ⟨n⟩ := by
  rw [join, isAbsolute_of_notMem hn]
  rfl

/-- A path that neither begins nor ends with a slash takes names before or after it is joined. -/
theorem join_join {r : Path} (hr : r.isAbsolute = false) (hne : r.text ≠ [])
    (hlast : r.text.getLast? ≠ some '/') (hn : n.IsName) :
    p.join (r.join ⟨n⟩) = (p.join r).join ⟨n⟩ := by
  have hemp : r.text.isEmpty = false := List.isEmpty_eq_false_iff.mpr hne
  have habs : (r.join ⟨n⟩).isAbsolute = false := by
    rw [isAbsolute, (join_name hn).1]
    exact hr
  have htext : (r.join ⟨n⟩).text = r.text ++ '/' :: n := by
    rw [text_join hn.no_slash, hemp, Bool.false_or, if_neg (by simpa using hlast)]
  have hjoin (s : Text) : (Path.mk (s ++ r.text)).join ⟨n⟩ = ⟨s ++ r.text ++ '/' :: n⟩ := by
    have hlast' : (s ++ r.text).getLast? ≠ some '/' := by
      rwa [List.getLast?_append_of_ne_nil _ hne]
    have hemp' : (s ++ r.text).isEmpty = false := by simp [hne]
    rw [join, isAbsolute_of_notMem hn.no_slash, if_neg Bool.false_ne_true, hemp', Bool.false_or,
      if_neg (by simpa using hlast')]
  have hpr : p.join r = if p.text.isEmpty || p.text.getLast? = some '/' then ⟨p.text ++ r.text⟩
      else ⟨p.text ++ '/' :: r.text⟩ := by
    rw [join, hr, if_neg Bool.false_ne_true]
  rw [join, habs, if_neg Bool.false_ne_true, htext, hpr]
  split
  · rw [hjoin, List.append_assoc]
  · have := hjoin (p.text ++ ['/'])
    simp only [List.append_assoc, List.singleton_append] at this
    exact this.symm

/-- Names that are joined one by one or as a path of their own make the same path. -/
theorem join_joinAll (h : ∀ n ∈ ns, n.IsName) (hne : ns ≠ []) :
    p.join (joinAll ⟨[]⟩ ns) = p.joinAll ns := by
  -- The last name is the one that is joined last, so names are taken off the end.
  induction ns using List.reverseRecOn with
  | nil => exact absurd rfl hne
  | append_singleton ms n ih =>
    have hn := h n (by simp)
    have hms : ∀ m ∈ ms, m.IsName := fun m hm => h m (List.mem_append_left _ hm)
    rw [joinAll_concat, joinAll_concat]
    rcases List.eq_nil_or_concat' ms with rfl | ⟨ls, m, rfl⟩
    · rw [joinAll_nil, nil_join hn.no_slash, joinAll_nil]
    · rw [← ih hms (by simp)]
      have hm := hms m (by simp)
      apply join_join _ _ _ hn
      · rw [isAbsolute, lead_joinAll hms]
        rfl
      · rw [joinAll_concat]
        exact join_ne_nil hm
      · rw [joinAll_concat]
        exact getLast?_join_ne hm

end CleanCopy.Path
