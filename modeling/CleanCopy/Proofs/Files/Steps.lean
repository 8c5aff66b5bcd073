import CleanCopy.Files.Resolve
import CleanCopy.Proofs.Text.Join
import CleanCopy.Proofs.Text.Trim

namespace CleanCopy.Path

variable {p : Path} {n : Text} {ns ss ts : List Text}

/-- The step that a stretch means. -/
def stepOf (s : Text) : Component := (Component.ofSegment? s).getD .here

/-- The steps of a path that come before a name joined to it. -/
def approach (p : Path) : List Component := p.lead.toList ++ p.trunk.map stepOf

theorem stepOf_of_isName (hn : n.IsName) : stepOf n = .name n := by
  rw [stepOf, Component.ofSegment?_of_isName hn]
  rfl

theorem steps_of_segments (h : p.segments = ss ++ ts) :
    p.steps = p.lead.toList ++ ss.map stepOf ++ ts.map stepOf := by
  rw [steps, h, List.map_append, ← List.append_assoc]
  rfl

theorem steps_eq_approach (p : Path) : ∃ hs, p.steps = p.approach ++ hs ∧ ∀ h ∈ hs, h = .here := by
  rcases p.segments_eq_trunk with h | h
  · exact ⟨[], by rw [List.append_nil, approach, ← h]; rfl, fun _ hm => absurd hm List.not_mem_nil⟩
  · exact ⟨[.here], steps_of_segments h, fun _ hm => List.mem_singleton.mp hm⟩

theorem steps_join (hn : n.IsName) : (p.join ⟨n⟩).steps = p.approach ++ [.name n] := by
  rw [steps_of_segments (join_name hn).2, (join_name hn).1, List.map_singleton,
    stepOf_of_isName hn]
  rfl

theorem approach_join (hn : n.IsName) : (p.join ⟨n⟩).approach = p.approach ++ [.name n] := by
  rw [approach, trunk_join hn, (join_name hn).1, List.map_append, List.map_singleton,
    stepOf_of_isName hn, ← List.append_assoc]
  rfl

theorem approach_joinAll (h : ∀ n ∈ ns, n.IsName) :
    (p.joinAll ns).approach = p.approach ++ ns.map .name := by
  induction ns generalizing p with
  | nil => rw [joinAll_nil, List.map_nil, List.append_nil]
  | cons n ns ih =>
    obtain ⟨hn, hns⟩ := List.forall_mem_cons.mp h
    have := ih (p := p.join ⟨n⟩) hns
    rw [approach_join hn, List.append_assoc] at this
    exact this

theorem steps_joinAll (h : ∀ n ∈ ns, n.IsName) (hne : ns ≠ []) :
    (p.joinAll ns).steps = (p.joinAll ns).approach := by
  obtain ⟨ms, m, rfl⟩ := (List.eq_nil_or_concat' ns).resolve_left hne
  have hm : m.IsName := h m (by simp)
  rw [joinAll_concat, steps_join hm, approach_join hm]

theorem steps_append_slash {t : Text} (h : t ≠ []) :
    Path.steps ⟨t ++ ['/']⟩ = Path.steps ⟨t⟩ ++ [.here] := by
  have hlead := splitLead_append h []
  have hsegs : Path.segments ⟨t ++ ['/']⟩ = Path.segments ⟨t⟩ ++ [[]] := by
    rw [segments, hlead, splitOn_append]
    rfl
  have hleads : Path.lead ⟨t ++ ['/']⟩ = Path.lead ⟨t⟩ := by rw [lead, hlead, lead]
  rw [steps_of_segments hsegs, hleads]
  rfl

theorem steps_bare (h : p.bare.text ≠ []) :
    ∃ hs, p.steps = p.bare.steps ++ hs ∧ ∀ h ∈ hs, h = .here := by
  obtain ⟨t⟩ := p
  rw [bare, Text.dropEndWhile_eq_rdropWhile] at h ⊢
  induction t using List.reverseRecOn with
  | nil => exact absurd rfl h
  | append_singleton t c ih =>
    by_cases hc : c = '/'
    · subst hc
      rw [List.rdropWhile_concat_pos _ _ _ (by decide)] at h ⊢
      obtain ⟨hs, heq, hh⟩ := ih h
      have hne : t ≠ [] := by
        intro hnil
        rw [hnil] at h
        exact h rfl
      refine ⟨hs ++ [.here], by rw [steps_append_slash hne, heq, List.append_assoc], fun c hc => ?_⟩
      rcases List.mem_append.mp hc with hc | hc
      · exact hh c hc
      · exact List.mem_singleton.mp hc
    · rw [List.rdropWhile_concat_neg _ _ _ (by simpa using hc)]
      exact ⟨[], (List.append_nil _).symm, fun _ h => absurd h List.not_mem_nil⟩

theorem bare_join (hn : n.IsName) : (p.join ⟨n⟩).bare = p.join ⟨n⟩ := by
  have hlast := getLast?_join_ne (p := p) hn
  obtain ⟨t, c, ht⟩ := (List.eq_nil_or_concat' (p.join ⟨n⟩).text).resolve_left (join_ne_nil hn)
  rw [ht, List.getLast?_concat] at hlast
  rw [bare, Text.dropEndWhile_eq_rdropWhile, ht, List.rdropWhile_concat_neg, ← ht]
  simpa using hlast

theorem steps_ne_nil (p : Path) : p.steps ≠ [] := by
  intro h
  rw [steps, List.append_eq_nil_iff, List.map_eq_nil_iff, segments, Text.splitOn_eq_splitOn] at h
  exact List.splitOn_ne_nil _ _ h.2

theorem isName_of_mem_steps (h : .name n ∈ p.steps) : n.IsName := by
  rcases List.mem_append.mp h with h | h
  · rw [lead, splitLead.eq_def] at h
    split at h <;> simp at h
  · obtain ⟨s, hs, heq⟩ := List.mem_map.mp h
    have hslash := notMem_segments p s hs
    cases hc : Component.ofSegment? s with
    | none =>
      rw [hc] at heq
      cases heq
    | some c =>
      rw [hc] at heq
      exact Component.isName_of_ofSegment? hslash (hc.trans (congrArg some heq))

end CleanCopy.Path
