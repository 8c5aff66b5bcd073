import CleanCopy.Proofs.Files.MakeDir

namespace CleanCopy.Disk

open CleanCopy.Path

variable {d e f : Disk} {p : Path} {b x : Place} {n : Text} {ns ms ks : List Text} {c : ByteArray}

/-- Only directories are made, whatever comes of it. -/
theorem Tidy.makeDirsAlong_becomes (ht : d.Tidy) (ps : List Path) :
    d.Becomes [] (d.makeDirsAlong ps).1 :=
  makeDirsAlong_induction (R := fun d e => d.Tidy → d.Becomes [] e) (fun d _ => .refl d)
    (fun h h' ht => (h ht).trans (h' ((h ht).isTidy ht))) (fun h ht => ht.makeDir_ok h) d ps ht

theorem Tidy.makeDirs_becomes (ht : d.Tidy) (p : Path) : d.Becomes [] (d.makeDirs p).1 :=
  ht.makeDirsAlong_becomes _

/-- Afterwards the path leads to a directory. -/
theorem Tidy.makeDirs_ok (ht : d.Tidy) (h : d.makeDirs p = (e, .ok ())) : ∃ b, e.Enters p b := by
  have he : e.Tidy := by
    have := (ht.makeDirs_becomes p).isTidy ht
    rwa [h] at this
  obtain ⟨b, hb⟩ := Disk.makeDirs_ok (ht.sight_eq_dir.mpr ht.here) h
  exact ⟨b, he.reaches_iff.mp hb⟩

/-- Nothing is made when all is there. -/
theorem Enters.makeDirs (h : d.Enters p b) (ht : d.Tidy) : d.makeDirs p = (d, .ok ()) := by
  rw [makeDirs_eq, makeDirsAlong]
  split
  · rfl
  · rename_i hp
    have hp : p.text ≠ [] := fun hnil => hp (List.isEmpty_iff.mpr hnil)
    rw [h.makeDir ht hp]
    simp only [ht.isDir_iff.mpr ⟨hp, b, h⟩, if_true]

section names
variable (h : d.Enters p b) (ht : d.Tidy) (hns : ∀ n ∈ ns, n.IsName) (hn : n.IsName)
include h ht hns hn

theorem Enters.dirAround_of_dir (hdir : d.look (b ++ ns) = some none) :
    d.dirAround ((p.joinAll ns).join ⟨n⟩) = .ok (b ++ ns) := by
  refine ht.dirAroundFrom_eq_ok.mpr ⟨?_, hdir⟩
  rw [bare_join hn, steps_join hn, List.dropLast_concat, h.follow_approach ht hns]
  exact Node.follow_names ht.root hdir

theorem Enters.dirAround_of_file (hms : ns = ms ++ ks) (hfile : d.look (b ++ ms) = some (some c)) :
    d.dirAround ((p.joinAll ns).join ⟨n⟩) = .error .notDirectory := by
  rw [dirAround, dirAroundFrom, bare_join hn, steps_join hn, List.dropLast_concat]
  have hf := h.follow_approach ht hns
  by_cases hks : ks = []
  · obtain rfl : ns = ms := by rw [hms, hks, List.append_nil]
    rw [Node.resolve_of_target (hf.trans (Node.follow_names ht.root hfile))]
    simp [Node.look_eq_file.mp hfile, Node.isDir]
  · have hfail : d.root.follow b (ns.map .name) = .failed .notDirectory := by
      rw [hms, List.map_append]
      exact Node.follow_names_of_file ht.root hfile (by simpa using hks)
    rw [Node.resolve_of_failed (hf.trans hfail)]

theorem Enters.dirAround_of_none (hnone : d.look (b ++ ns) = none) (hopen : d.root.Open b ns) :
    d.dirAround ((p.joinAll ns).join ⟨n⟩) = .error .missing := by
  rw [dirAround, dirAroundFrom, bare_join hn, steps_join hn, List.dropLast_concat]
  have hf := h.follow_approach ht hns
  rcases Node.follow_names_of_none ht.root h.dir hnone hopen with hfree | hfail
  · rw [Node.resolve_of_target (hf.trans hfree)]
  · rw [Node.resolve_of_failed (hf.trans hfail)]

end names

theorem makeDir_join (hn : n.IsName) : d.makeDir (p.join ⟨n⟩) =
    match d.dirAround (p.join ⟨n⟩) with
    | .error e => .error e
    | .ok x => if (d.root.get? (x ++ [n])).isSome then .error .present
      else .ok (d.withNode (x ++ [n]) (.dir [])) := by
  have hp : (p.join ⟨n⟩).text.isEmpty = false := List.isEmpty_eq_false_iff.mpr (join_ne_nil hn)
  rw [makeDir, bare_join hn, hp, steps_join hn, List.getLast?_concat]
  cases d.dirAround (p.join ⟨n⟩) <;> rfl

theorem dirAround_join (hn : n.IsName) : d.dirAround (p.join ⟨n⟩) = .ok x ↔
    d.root.resolve maxLinks d.here p.approach = .ok (.node x) ∧ d.root.sight x = some (.dir []) := by
  rw [dirAround, dirAroundFrom_eq_ok, bare_join hn, steps_join hn, List.dropLast_concat]

/-- Nothing that a directory lies in is missing. -/
theorem Reaches.makeDir_ne_missing (h : d.Reaches p b) (hn : n.IsName) :
    d.makeDir (p.join ⟨n⟩) ≠ .error .missing := by
  intro hmake
  rw [makeDir_join hn, (dirAround_join hn).mpr ⟨h.approach, h.dir⟩] at hmake
  dsimp only at hmake
  split at hmake <;> cases hmake

theorem makeDirsAlong_of_ok (hp : p.text ≠ []) (h : d.makeDir p = .ok e) (above : List Path) :
    d.makeDirsAlong (p :: above) = (e, .ok ()) := by
  rw [makeDirsAlong, if_neg (by simpa using hp), h]

theorem makeDirsAlong_of_error (hp : p.text ≠ []) {err : FileError}
    (h : d.makeDir p = .error err) (herr : err ≠ .missing) (above : List Path) :
    d.makeDirsAlong (p :: above) = (d, if d.isDir p then .ok () else .error err) := by
  rw [makeDirsAlong, if_neg (by simpa using hp), h]
  cases err <;> first | rfl | exact absurd rfl herr

theorem makeDirsAlong_cons_of_missing (hp : p.text ≠ []) (h : d.makeDir p = .error .missing)
    (above : List Path) : d.makeDirsAlong (p :: above) =
      match d.makeDirsAlong above with
      | (d, .error e) => (d, .error e)
      | (d, .ok ()) =>
        match d.makeDir p with
        | .ok d => (d, .ok ())
        | .error e => (d, if d.isDir p then .ok () else .error e) := by
  rewrite [makeDirsAlong, if_neg (by simpa using hp), h]
  rfl

theorem makeDirsAlong_of_missing (hp : p.text ≠ []) (h : d.makeDir p = .error .missing)
    {above : List Path} (habove : d.makeDirsAlong above = (e, .ok ()))
    (hnow : e.makeDir p = .ok f) : d.makeDirsAlong (p :: above) = (f, .ok ()) := by
  simp only [makeDirsAlong_cons_of_missing hp h, habove, hnow]

theorem Enters.makeDir_of_dir (h : d.Enters p b) (ht : d.Tidy) (hns : ∀ n ∈ ns, n.IsName)
    (hn : n.IsName) (hdir : d.look (b ++ ns) = some none) (hfree : d.look (b ++ ns ++ [n]) = none) :
    d.makeDir ((p.joinAll ns).join ⟨n⟩) = .ok (d.withNode (b ++ ns ++ [n]) (.dir [])) := by
  have hget : (d.root.get? (b ++ ns ++ [n])).isSome = false := by
    rw [Node.look_eq_none.mp hfree]
    rfl
  rw [makeDir_join hn, h.dirAround_of_dir ht hns hn hdir]
  simp only [hget, Bool.false_eq_true, if_false]

theorem Enters.makeDirsAlong_of_open (h : d.Enters p b) (ht : d.Tidy) {k : Nat}
    (hlen : ns.length ≤ k) (hns : ∀ n ∈ ns, n.IsName) (hnone : d.look (b ++ ns) = none)
    (hopen : d.root.Open b ns) :
    ∃ e, d.makeDirsAlong ((p.joinAll ns).ancestors k) = (e, .ok ()) ∧ d.MakesWay (b ++ ns) e := by
  -- Names are taken off the end, as the search for a directory to begin with does.
  induction ns using List.reverseRecOn generalizing k with
  | nil =>
    rw [List.append_nil, h.dir] at hnone
    cases hnone
  | append_singleton ms m ih =>
    have hm : m.IsName := hns m (by simp)
    have hms : ∀ n ∈ ms, n.IsName := fun n hn => hns n (List.mem_append_left _ hn)
    have hne : ((p.joinAll ms).join ⟨m⟩).text ≠ [] := join_ne_nil hm
    obtain ⟨k, rfl⟩ : ∃ k', k = k' + 1 :=
      Nat.exists_eq_succ_of_ne_zero (by simp at hlen; omega)
    rw [joinAll_concat, ancestors]
    rw [← List.append_assoc] at hnone ⊢
    match habove : d.look (b ++ ms) with
    | some none =>
      have hmake := h.makeDir_of_dir ht hms hm habove hnone
      exact ⟨_, makeDirsAlong_of_ok hne hmake _, ht.makesWay_newDir habove hnone hm⟩
    | some (some c) => exact absurd habove (hopen ms [m] rfl c)
    | none =>
      have hne' : ms ≠ [] := h.ne_nil (by simp [habove])
      have hmissing : d.makeDir ((p.joinAll ms).join ⟨m⟩) = .error .missing := by
        rw [makeDir_join hm, h.dirAround_of_none ht hms hm habove hopen.of_append]
      -- The directory above is made first, and then there is a second try.
      obtain ⟨e, he, hway⟩ := ih (k := k) (by simp at hlen; omega) hms habove hopen.of_append
      have hte := hway.becomes.isTidy ht
      have hfree := hway.free hnone
      have hmake := (hway.becomes.enters ht h).makeDir_of_dir hte hms hm hway.dir hfree
      rw [parent?_joinAll_join hne' hms hm]
      exact ⟨_, makeDirsAlong_of_missing hne hmissing he hmake,
        hway.concat (hte.makesWay_newDir hway.dir hfree hm)⟩

/-- Where no file stands in the way, all directories can be made. -/
theorem Enters.makeDirs_of_open (h : d.Enters p b) (ht : d.Tidy) (hns : ∀ n ∈ ns, n.IsName)
    (hnone : d.look (b ++ ns) = none) (hopen : d.root.Open b ns) :
    ∃ e, d.makeDirs (p.joinAll ns) = (e, .ok ()) ∧ d.MakesWay (b ++ ns) e :=
  h.makeDirsAlong_of_open ht (length_le_text_joinAll hns) hns hnone hopen

/-- A file in the way of a directory stops it from being made. -/
theorem Enters.makeDirs_of_file (h : d.Enters p b) (ht : d.Tidy) (hns : ∀ n ∈ ns, n.IsName)
    (hms : ns = ms ++ ks) (hks : ks ≠ []) (hfile : d.look (b ++ ms) = some (some c)) :
    d.makeDirs (p.joinAll ns) = (d, .error .notDirectory) := by
  obtain ⟨ls, l, rfl⟩ := (List.eq_nil_or_concat' ks).resolve_left hks
  rw [← List.append_assoc] at hms
  have hl : l.IsName := hns l (by simp [hms])
  have hfront : ∀ n ∈ ms ++ ls, n.IsName := fun n hn =>
    hns n (by rw [hms]; exact List.mem_append_left _ hn)
  have herr : d.makeDir (p.joinAll ns) = .error .notDirectory := by
    rw [hms, joinAll_concat, makeDir_join hl, h.dirAround_of_file ht hfront hl rfl hfile]
  have hne : ns ≠ [] := by simp [hms]
  have hdir : d.isDir (p.joinAll ns) = false := by
    rw [← Bool.not_eq_true, h.isDir_joinAll ht hns hne]
    intro hdir
    rw [hms, List.append_assoc, ← List.append_assoc] at hdir
    cases (Node.look_of_append hdir (by simp)).symm.trans hfile
  rw [makeDirs_eq, makeDirsAlong_of_error (joinAll_text_ne_nil hne hns) herr (by decide), hdir]
  rfl

end CleanCopy.Disk
