import CleanCopy.Proofs.Files.Write

namespace CleanCopy.Disk

open CleanCopy.Path

variable {d e : Disk} {p q : Path} {b x : Place} {n c : Text} {ns : List Text} {t : Text}

/-- The steps before a name joined to a path lead to an empty directory. -/
def Fresh (d : Disk) (p : Path) : Prop :=
  ∃ x, d.root.resolve maxLinks d.here p.approach = .ok (.node x) ∧
    d.root.sight x = some (.dir []) ∧ ∀ n, d.root.sight (x ++ [n]) = none

theorem fresh_of_makeDir (hn : n.IsName) (h : d.makeDir (p.join ⟨n⟩) = .ok e) :
    e.Fresh (p.join ⟨n⟩) := by
  obtain ⟨x, m, hmakes⟩ := exists_makes h
  have hresolve := hmakes.resolve_bare
  rw [bare_join hn, steps_join hn, ← approach_join hn] at hresolve
  refine ⟨_, hresolve, by rw [hmakes.sight_eq, if_pos rfl], fun k => ?_⟩
  rw [hmakes.sight_eq, if_neg (by simp), Node.sight_eq_none, Node.get?_concat,
    Node.sight_eq_none.mp hmakes.free]
  rfl

theorem Fresh.makeDir (h : d.Fresh p) (hn : n.IsName) : ∃ e, d.makeDir (p.join ⟨n⟩) = .ok e := by
  obtain ⟨x, hx, hdir, hfree⟩ := h
  have hnone : (d.root.get? (x ++ [n])).isSome = false := by
    rw [Node.sight_eq_none.mp (hfree n)]
    rfl
  rw [makeDir_join hn, (dirAround_join hn).mpr ⟨hx, hdir⟩]
  simp [hnone]

theorem Fresh.write (h : d.Fresh p) (hc : c.IsName) (t : Text) :
    ∃ e, d.write (p.join ⟨c⟩) t = (e, .ok ()) := by
  obtain ⟨x, hx, hdir, hfree⟩ := h
  have hwants : d.wantsDir (maxLinks + 1) d.here (p.join ⟨c⟩) = false := by
    have haround : d.dirAroundFrom d.here (p.join ⟨c⟩) = .ok x := (dirAround_join hc).mpr ⟨hx, hdir⟩
    have hlast : (p.join ⟨c⟩).text.getLast? ≠ some '/' := getLast?_join_ne hc
    rw [wantsDir, haround]
    simp [hlast, steps_join hc, Node.sight_eq_none.mp (hfree c)]
  have hresolve : d.resolve (p.join ⟨c⟩) = .ok (.free (x ++ [c])) := by
    rw [resolve, resolveFrom, if_neg (by simpa using join_ne_nil hc), steps_join hc]
    refine Node.resolve_append hx ?_
    rw [Node.follow_cons, hdir]
    simp [hfree]
  rw [Disk.write, writeBytes, hwants, hresolve]
  exact ⟨_, rfl⟩

section names
variable (h : d.Reaches p b) (hns : ∀ n ∈ ns, n.IsName) (hne : ns ≠ [])
include h hns hne

theorem Reaches.makeDirsAlong_intact {k : Nat} (hlen : ns.length ≤ k) :
    (d.makeDirsAlong ((p.joinAll ns).ancestors k)).1 = d ∨
      (d.makeDirsAlong ((p.joinAll ns).ancestors k)).2 = .ok () ∧
        (d.makeDirsAlong ((p.joinAll ns).ancestors k)).1.Fresh (p.joinAll ns) := by
  induction ns using List.reverseRecOn generalizing k with
  | nil => exact absurd rfl hne
  | append_singleton ms m ih =>
    have hm : m.IsName := hns m (by simp)
    have hms : ∀ n ∈ ms, n.IsName := fun n hn => hns n (List.mem_append_left _ hn)
    have htext : ((p.joinAll ms).join ⟨m⟩).text ≠ [] := join_ne_nil hm
    obtain ⟨k, rfl⟩ : ∃ k', k = k' + 1 :=
      Nat.exists_eq_succ_of_ne_zero (by simp at hlen; omega)
    rw [joinAll_concat, ancestors]
    cases hmake : d.makeDir ((p.joinAll ms).join ⟨m⟩) with
    | ok e =>
      rw [makeDirsAlong_of_ok htext hmake]
      exact .inr ⟨rfl, fresh_of_makeDir hm hmake⟩
    | error err =>
      by_cases herr : err = .missing
      · subst herr
        -- The path itself leads to a directory, so something above the last name is missing.
        have hne' : ms ≠ [] := by
          rintro rfl
          exact h.makeDir_ne_missing hm hmake
        rw [parent?_joinAll_join hne' hms hm, makeDirsAlong_cons_of_missing htext hmake]
        have habove := ih hms hne' (k := k) (by simp at hlen; omega)
        dsimp only
        rcases hr : d.makeDirsAlong ((p.joinAll ms).ancestors k) with ⟨e, r⟩
        rw [hr] at habove
        rcases habove with rfl | ⟨rfl, hfresh⟩
        · cases r with
          | error err => exact .inl rfl
          | ok u => exact .inl (by simp only [hmake])
        · obtain ⟨f, hf⟩ := hfresh.makeDir hm
          simp only [hf]
          exact .inr ⟨trivial, fresh_of_makeDir hm hf⟩
      · rw [makeDirsAlong_of_error htext hmake herr]
        exact .inl rfl

/-- Directories below one that is there are all made, or none of them is. -/
theorem Reaches.makeDirs_intact : (d.makeDirs (p.joinAll ns)).1 = d ∨
    (d.makeDirs (p.joinAll ns)).2 = .ok () ∧ (d.makeDirs (p.joinAll ns)).1.Fresh (p.joinAll ns) :=
  h.makeDirsAlong_intact hns hne (length_le_text_joinAll hns)

end names

theorem writeWithParents_error_of_ensured (hq : p.parent? = some q) (hd : (d.ensureDir q).1 = d)
    {err : Failure} (herr : (d.writeWithParents p t).2 = .error err) :
    (d.writeWithParents p t).1 = d := by
  by_cases hne : q.text = []
  · obtain ⟨s⟩ := q
    obtain rfl : s = [] := hne
    rw [writeWithParents_of_no_parent hq] at herr ⊢
    exact write_error herr
  · rcases he : d.ensureDir q with ⟨e, r⟩
    obtain rfl : e = d := by rw [he] at hd; exact hd
    cases r with
    | ok u =>
      rw [writeWithParents_of_ensured hq hne he] at herr ⊢
      exact write_error herr
    | error e => rw [writeWithParents_of_not_ensured hq hne he]

theorem ensureDir_of_holds (h : d.holds q = true) : d.ensureDir q = (d, .ok ()) := by
  rw [ensureDir, if_pos h]

/-- A write below a directory that is there changes nothing when it fails. -/
theorem Reaches.writeWithParents_intact (h : d.Reaches q b) (hns : ∀ n ∈ ns, n.IsName)
    (hc : c.IsName) {err : Failure}
    (herr : (d.writeWithParents ((q.joinAll ns).join ⟨c⟩) t).2 = .error err) :
    (d.writeWithParents ((q.joinAll ns).join ⟨c⟩) t).1 = d := by
  by_cases hne : ns = []
  · subst hne
    rw [joinAll_nil, h.writeWithParents_join hc] at herr ⊢
    exact write_error herr
  · have hparent := parent?_joinAll_join (p := q) hne hns hc
    by_cases hholds : d.holds (q.joinAll ns) = true
    · refine writeWithParents_error_of_ensured hparent ?_ herr
      rw [ensureDir_of_holds hholds]
    · rcases h.makeDirs_intact hns hne with hd | ⟨hok, hfresh⟩
      · refine writeWithParents_error_of_ensured hparent ?_ herr
        rw [ensureDir, if_neg hholds]
        split <;> rename_i he <;> rw [he] at hd <;> exact hd
      · -- What has just been made is empty, so that the file is written.
        have hensured : d.ensureDir (q.joinAll ns) = ((d.makeDirs (q.joinAll ns)).1, .ok ()) := by
          rw [ensureDir, if_neg hholds]
          rcases hm : d.makeDirs (q.joinAll ns) with ⟨e, r⟩
          rw [hm] at hok
          subst hok
          rfl
        obtain ⟨f, hf⟩ := hfresh.write hc t
        rw [writeWithParents_of_ensured hparent (joinAll_text_ne_nil hne hns) hensured, hf] at herr
        cases herr

/-- A stretch that is no name may stand before the name of the file. -/
theorem Reaches.writeWithParents_intact_join (h : d.Reaches q b) {s : Text} (hs : '/' ∉ s)
    (hname : ¬ s.IsName) (hc : c.IsName) {err : Failure}
    (herr : (d.writeWithParents ((q.join ⟨s⟩).join ⟨c⟩) t).2 = .error err) :
    (d.writeWithParents ((q.join ⟨s⟩).join ⟨c⟩) t).1 = d := by
  obtain ⟨b', hb⟩ := h.join_of_not_name hs hname
  have hnone : ∀ n ∈ ([] : List Text), n.IsName := fun n hn => absurd hn List.not_mem_nil
  rw [← joinAll_nil (q.join ⟨s⟩)] at herr ⊢
  exact hb.writeWithParents_intact hnone hc herr

end CleanCopy.Disk
