import CleanCopy.Files.Node
import CleanCopy.Proofs.Text.Join
import Mathlib.Data.List.Infix

namespace CleanCopy

namespace Path

variable {p q : Path} {ss ts : List Text}

theorem filterMap_dropIdle (ss : List Text) :
    (dropIdle ss).filterMap Component.ofSegment? = ss.filterMap Component.ofSegment? := by
  obtain ⟨ts, hss, hts⟩ := dropIdle_append ss
  conv_rhs => rw [hss, List.filterMap_append]
  rw [List.filterMap_eq_nil_iff.mpr hts, List.append_nil]

/-- What idle stretches are dropped from is empty or ends in a stretch that means something. -/
theorem dropIdle_shape (ss : List Text) :
    dropIdle ss = [] ∨ ∃ ts s c, dropIdle ss = ts ++ [s] ∧ Component.ofSegment? s = some c := by
  induction ss with
  | nil => exact .inl rfl
  | cons s ss ih =>
    rw [dropIdle]
    split
    · split
      · exact .inl rfl
      · rename_i hs
        obtain ⟨c, hc⟩ := Option.ne_none_iff_exists'.mp (mt Option.isNone_iff_eq_none.mpr hs)
        exact .inr ⟨[], s, c, rfl, hc⟩
    · rename_i hne
      obtain ⟨ts, s', c, heq, hc⟩ := ih.resolve_left hne
      exact .inr ⟨s :: ts, s', c, congrArg (s :: ·) heq, hc⟩

/-- The first stretches of a path mean what they mean in it. -/
theorem components_withSegments (h : p.segments = ss ++ ts) :
    (p.withSegments ss).components = p.lead.toList ++ ss.filterMap Component.ofSegment? := by
  by_cases hne : ss = []
  · subst hne
    rw [List.filterMap_nil, List.append_nil, withSegments]
    rw [lead, splitLead.eq_def]
    split <;> rfl
  · obtain ⟨hlead, hsegs⟩ := withSegments_spelling h hne
    rw [components, hlead, hsegs]

theorem ofSegment?_ne_root (s : Text) : Component.ofSegment? s ≠ some .root := by
  rw [Component.ofSegment?.eq_def]
  split <;> simp

/-- Only the root and the empty path lie in no directory. All components of a path but the last one
reach its directory. -/
theorem parent?_cases (p : Path) : p.parent? = none ∧ (∀ c ∈ p.components, c = .root) ∧
      p.components.dropLast = [] ∨
    ∃ q, p.parent? = some q ∧ (∃ c ∈ p.components, c ≠ .root) ∧
      q.components = p.components.dropLast := by
  rcases dropIdle_shape p.segments with hnil | ⟨ss, s, c, hss, hc⟩
  · have hcomp : p.components = p.lead.toList := by
      rw [components, ← filterMap_dropIdle, hnil, List.filterMap_nil, List.append_nil]
    rw [hcomp, parent?, hnil]
    by_cases hlead : p.lead = some .here
    · exact .inr ⟨⟨[]⟩, if_pos hlead, ⟨.here, by simp [hlead], by decide⟩, by rw [hlead]; rfl⟩
    · refine .inl ⟨if_neg hlead, ?_⟩
      rw [lead] at hlead ⊢
      revert hlead
      rw [splitLead.eq_def]
      split <;> simp
  · have hparent : p.parent? = some (p.withSegments (dropIdle ss)) := by
      rw [parent?, hss]
      cases hc : ss ++ [s] with
      | nil => simp at hc
      | cons s' ss' =>
        change some (p.withSegments (dropIdle (s' :: ss').dropLast)) = _
        rw [← hc, List.dropLast_concat]
    obtain ⟨ts, hts, -⟩ := dropIdle_append p.segments
    obtain ⟨us, hus, -⟩ := dropIdle_append ss
    have hfront : p.segments = dropIdle ss ++ (us ++ ([s] ++ ts)) := by
      rw [← List.append_assoc, ← hus, ← List.append_assoc, ← hss]
      exact hts
    have hcomp : p.components =
        (p.lead.toList ++ ss.filterMap Component.ofSegment?) ++ [c] := by
      rw [components, ← filterMap_dropIdle, hss, List.filterMap_append, List.append_assoc]
      simp [hc]
    refine .inr ⟨_, hparent, ⟨c, by simp [hcomp], ?_⟩, ?_⟩
    · rintro rfl
      exact ofSegment?_ne_root s hc
    · rw [components_withSegments hfront, filterMap_dropIdle, hcomp, List.dropLast_concat]

theorem components_parent? (h : p.parent? = some q) : q.components = p.components.dropLast := by
  rcases p.parent?_cases with ⟨hnone, -⟩ | ⟨q', hq', -, hcomp⟩
  · cases hnone.symm.trans h
  · obtain rfl := Option.some.inj (hq'.symm.trans h)
    exact hcomp

theorem parent?_eq_none_iff : p.parent? = none ↔ ∀ c ∈ p.components, c = .root := by
  rcases p.parent?_cases with ⟨hnone, hroot, -⟩ | ⟨q, hq, ⟨c, hmem, hc⟩, -⟩
  · exact iff_of_true hnone hroot
  · exact iff_of_false (by rw [hq]; exact Option.some_ne_none _) fun hall => hc (hall c hmem)

end Path

namespace Place

open CleanCopy.Path

/-- The path that leads to a place from the root by names. -/
def path (x : Place) : Path := joinAll ⟨['/']⟩ x

variable {x : Place} {n : Text}

theorem path_concat (x : Place) (n : Text) : path (x ++ [n]) = x.path.join ⟨n⟩ := joinAll_concat ..

theorem text_path (h : ∀ n ∈ x, n.IsName) : x.path.text = '/' :: joinSegments x := by
  induction x using List.reverseRecOn with
  | nil => rfl
  | append_singleton x n ih =>
    have hn := h n (by simp)
    have hx : ∀ m ∈ x, m.IsName := fun m hm => h m (List.mem_append_left _ hm)
    rw [path_concat, text_join hn.no_slash]
    rcases List.eq_nil_or_concat' x with rfl | ⟨ms, m, rfl⟩
    · rfl
    · have hm : m.IsName := hx m (by simp)
      have hlast : (path (ms ++ [m])).text.getLast? ≠ some '/' := by
        rw [path_concat]
        exact getLast?_join_ne hm
      have hne : (path (ms ++ [m])).text.isEmpty = false := by
        rw [path_concat]
        exact List.isEmpty_eq_false_iff.mpr (join_ne_nil hm)
      rw [hne, Bool.false_or, if_neg (by simpa using hlast), ih hx,
        joinSegments_append (by simp) (List.cons_ne_nil n [])]
      rfl

theorem parent?_path_concat (h : ∀ m ∈ x, m.IsName) (hn : n.IsName) :
    (path (x ++ [n])).parent? = some x.path := by
  rw [path_concat]
  rcases List.eq_nil_or_concat' x with rfl | ⟨ms, m, rfl⟩
  · exact parent?_join hn
  · exact parent?_joinAll_join (by simp) h hn

/-- The directories above a place are those that the names in front lead to. -/
theorem ancestors_path (h : ∀ n ∈ x, n.IsName) (depth : Nat) :
    x.path.ancestors depth = (x.inits.reverse.take depth).map path := by
  induction depth generalizing x with
  | zero => rfl
  | succ depth ih =>
    rw [Path.ancestors]
    rcases List.eq_nil_or_concat' x with rfl | ⟨ms, m, rfl⟩
    · have hroot : (path []).parent? = none := rfl
      simp [hroot]
    · have hms : ∀ n ∈ ms, n.IsName := fun n hn => h n (List.mem_append_left _ hn)
      rw [parent?_path_concat hms (h m (by simp)), List.inits_append]
      simp [ih hms]

end Place

end CleanCopy
