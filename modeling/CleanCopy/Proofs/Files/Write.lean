import CleanCopy.Proofs.Files.MakeDirs

namespace CleanCopy.Disk

open CleanCopy.Path

variable {d e f : Disk} {p q : Path} {b dir x : Place} {n c : Text} {ns ms ks : List Text}
  {old content : ByteArray} {t : Text}

/-- A name below the directory that the first part of a path enters, and its place. The directories
in between need not be there. -/
inductive Lands (d : Disk) : Path → Place → Prop
  | below {q : Path} {b : Place} {ns : List Text} {c : Text} (enters : d.Enters q b)
      (names : ∀ n ∈ ns, n.IsName) (name : c.IsName) : Lands d ((q.joinAll ns).join ⟨c⟩) (b ++ ns ++ [c])

theorem Enters.lands_join (h : d.Enters q b) (hc : c.IsName) : d.Lands (q.join ⟨c⟩) (b ++ [c]) := by
  have hnone : ∀ n ∈ ([] : List Text), n.IsName := fun n hn => absurd hn List.not_mem_nil
  have := Lands.below h hnone hc
  rwa [List.append_nil] at this

theorem Becomes.lands {ws : Writes} (h : d.Becomes ws e) (ht : d.Tidy) (hp : d.Lands p x) :
    e.Lands p x := by
  cases hp with
  | below hq hns hc => exact .below (h.enters ht hq) hns hc

theorem Tidy.wantsDir_join (ht : d.Tidy) (hn : n.IsName) (links : Nat) :
    d.wantsDir links dir (p.join ⟨n⟩) = false := by
  cases links with
  | zero => rfl
  | succ links =>
    rw [wantsDir]
    cases d.dirAroundFrom dir (p.join ⟨n⟩) with
    | error e => rfl
    | ok above =>
      have hlast : (p.join ⟨n⟩).text.getLast? ≠ some '/' := getLast?_join_ne hn
      simp only [hlast, decide_false, Bool.false_or, steps_join hn, List.getLast?_concat]
      split
      · rename_i path hlink
        exact absurd (ht.root.get? hlink).1 id
      · rfl

section names
variable (h : d.Enters q b) (ht : d.Tidy) (hns : ∀ n ∈ ns, n.IsName) (hc : c.IsName)
include h ht hns hc

theorem Enters.follow_target : d.root.follow d.here ((q.joinAll ns).join ⟨c⟩).steps =
    d.root.follow b ((ns ++ [c]).map .name) := by
  rw [← joinAll_concat]
  exact h.follow_joinAll ht (isName_concat hns hc)

theorem Enters.writeBytes_of_dir (hdir : d.look (b ++ ns ++ [c]) = some none) :
    d.writeBytes ((q.joinAll ns).join ⟨c⟩) content = .error .isDirectory := by
  obtain ⟨es, hes⟩ := ht.root.look_eq_dir.mp hdir
  have hf := h.follow_target ht hns hc
  rw [List.append_assoc] at hdir
  rw [Node.follow_names ht.root hdir, ← List.append_assoc] at hf
  rw [writeBytes, ht.wantsDir_join hc, resolve, resolveFrom_of_target (join_ne_nil hc) hf]
  simp only [hes, Option.any_some, Node.isFile, Bool.false_eq_true, if_false]

theorem Enters.writeBytes_of_file (hms : ns = ms ++ ks)
    (hfile : d.look (b ++ ms) = some (some old)) :
    d.writeBytes ((q.joinAll ns).join ⟨c⟩) content = .error .notDirectory := by
  have hf := h.follow_target ht hns hc
  rw [hms, List.append_assoc, List.map_append,
    Node.follow_names_of_file ht.root hfile (by simp), ← hms] at hf
  rw [writeBytes, ht.wantsDir_join hc, resolve, resolveFrom_of_failed (join_ne_nil hc) hf]
  rfl

theorem Enters.writeBytes_ok (hdir : d.look (b ++ ns) = some none)
    (hfree : d.look (b ++ ns ++ [c]) ≠ some none) :
    d.writeBytes ((q.joinAll ns).join ⟨c⟩) content =
      .ok (d.withNode (b ++ ns ++ [c]) (.file content)) := by
  have hf := h.follow_target ht hns hc
  rw [List.map_append, Node.follow_names_of_look ht.root hdir] at hf
  match hold : d.look (b ++ ns ++ [c]) with
  | none =>
    rw [List.map_singleton, Node.follow_name_of_free hdir ht.root hold] at hf
    rw [writeBytes, ht.wantsDir_join hc, resolve, resolveFrom_of_target (join_ne_nil hc) hf]
    rfl
  | some none => exact absurd hold hfree
  | some (some old) =>
    rw [List.map_singleton, Node.follow_name_of_look hdir ht.root hold] at hf
    rw [writeBytes, ht.wantsDir_join hc, resolve, resolveFrom_of_target (join_ne_nil hc) hf]
    simp only [Node.look_eq_file.mp hold, Option.any_some, Node.isFile, Bool.false_eq_true, if_false,
      if_true]

end names

theorem writeWithParents_of_ensured (hq : p.parent? = some q) (hne : q.text ≠ [])
    (he : d.ensureDir q = (e, .ok ())) : d.writeWithParents p t = e.write p t := by
  obtain ⟨s⟩ := q
  obtain ⟨a, s, rfl⟩ := List.exists_cons_of_ne_nil hne
  simp only [writeWithParents, hq, he]

theorem writeWithParents_of_not_ensured (hq : p.parent? = some q) (hne : q.text ≠ [])
    {err : Failure} (he : d.ensureDir q = (e, .error err)) :
    d.writeWithParents p t = (e, .error err) := by
  obtain ⟨s⟩ := q
  obtain ⟨a, s, rfl⟩ := List.exists_cons_of_ne_nil hne
  simp only [writeWithParents, hq, he]

theorem writeWithParents_of_no_parent (hq : p.parent? = some ⟨[]⟩) :
    d.writeWithParents p t = d.write p t := by
  rw [writeWithParents, hq]

theorem writeWithParents_of_holds (hq : p.parent? = some q) (hholds : d.holds q = true) :
    d.writeWithParents p t = d.write p t := by
  by_cases hne : q.text = []
  · obtain ⟨s⟩ := q
    obtain rfl : s = [] := hne
    exact writeWithParents_of_no_parent hq
  · exact writeWithParents_of_ensured hq hne (by rw [ensureDir, if_pos hholds])

/-- A name joined to a path that leads to a directory needs no directories. -/
theorem Reaches.writeWithParents_join (h : d.Reaches q b) (hc : c.IsName) (t : Text) :
    d.writeWithParents (q.join ⟨c⟩) t = d.write (q.join ⟨c⟩) t := by
  by_cases hnil : (q.withSegments (Path.dropIdle q.trunk)).text = []
  · apply writeWithParents_of_no_parent
    rw [parent?_join hc, ← hnil]
  · exact writeWithParents_of_holds (parent?_join hc) (h.dropIdle.holds hnil)

section names
variable (h : d.Enters q b) (ht : d.Tidy) (hns : ∀ n ∈ ns, n.IsName) (hc : c.IsName)
include h ht hns hc

/-- What is there already needs no directories. -/
theorem Enters.writeWithParents_of_look (hlook : d.look (b ++ ns) ≠ none) :
    d.writeWithParents ((q.joinAll ns).join ⟨c⟩) t = d.write ((q.joinAll ns).join ⟨c⟩) t := by
  by_cases hne : ns = []
  · subst hne
    exact (h.reaches ht).writeWithParents_join hc t
  · exact writeWithParents_of_holds (parent?_joinAll_join hne hns hc)
      ((h.holds_joinAll ht hns hne).mpr hlook)

/-- A directory in the place of the file stays. -/
theorem Enters.writeWithParents_of_dir (hdir : d.look (b ++ ns ++ [c]) = some none) :
    d.writeWithParents ((q.joinAll ns).join ⟨c⟩) t =
      (d, .error (.file ((q.joinAll ns).join ⟨c⟩) FileError.isDirectory.message)) := by
  have habove : d.look (b ++ ns) = some none := Node.look_of_append hdir (List.cons_ne_nil c [])
  rw [h.writeWithParents_of_look ht hns hc (by rw [habove]; exact Option.some_ne_none _), write,
    h.writeBytes_of_dir ht hns hc hdir]

/-- A file in the place of a directory stays. The failure names the path that was to be opened. -/
theorem Enters.writeWithParents_of_file (hms : ns = ms ++ ks)
    (hfile : d.look (b ++ ms) = some (some old)) :
    d.writeWithParents ((q.joinAll ns).join ⟨c⟩) t =
      (d, .error (.file (if ks = [] then (q.joinAll ns).join ⟨c⟩ else q.joinAll ns)
        FileError.notDirectory.message)) := by
  by_cases hks : ks = []
  · have habove : d.look (b ++ ns) ≠ none := by
      rw [hms, hks, List.append_nil, hfile]
      exact Option.some_ne_none _
    rw [h.writeWithParents_of_look ht hns hc habove, write,
      h.writeBytes_of_file ht hns hc hms hfile, if_pos hks]
  · have hne : ns ≠ [] := by
      rw [hms]
      exact List.append_ne_nil_of_right_ne_nil _ hks
    have hholds : d.holds (q.joinAll ns) = false := by
      rw [← Bool.not_eq_true, h.holds_joinAll ht hns hne]
      intro hlook
      obtain ⟨v, hv⟩ := Option.ne_none_iff_exists'.mp hlook
      rw [hms, ← List.append_assoc] at hv
      cases (Node.look_of_append hv hks).symm.trans hfile
    rw [if_neg hks]
    refine writeWithParents_of_not_ensured (parent?_joinAll_join hne hns hc)
      (joinAll_text_ne_nil hne hns) ?_
    simp only [ensureDir, hholds, h.makeDirs_of_file ht hns hms hks hfile, Bool.false_eq_true,
      if_false]

/-- Where nothing is in the way, the file is written. -/
theorem Enters.writeWithParents_of_open (hopen : d.root.Open b ns)
    (hfree : d.look (b ++ ns ++ [c]) ≠ some none) :
    ∃ e, d.writeWithParents ((q.joinAll ns).join ⟨c⟩) t = (e, .ok ()) ∧
      d.Becomes [(b ++ ns ++ [c], t.toBytes)] e := by
  have hwrite {e : Disk} (he : d.Becomes [] e) (hdir : e.look (b ++ ns) = some none)
      (hfree : e.look (b ++ ns ++ [c]) ≠ some none) :
      ∃ f, e.write ((q.joinAll ns).join ⟨c⟩) t = (f, .ok ()) ∧
        d.Becomes [(b ++ ns ++ [c], t.toBytes)] f := by
    have hte := he.isTidy ht
    refine ⟨_, ?_, he.trans (hte.becomes_newFile hdir hfree hc t.toBytes)⟩
    rw [write, (he.enters ht h).writeBytes_ok hte hns hc hdir hfree]
  cases habove : d.look (b ++ ns) with
  | none =>
    have hne : ns ≠ [] := h.ne_nil (by simp [habove])
    have htext := joinAll_text_ne_nil (p := q) hne hns
    have hholds : d.holds (q.joinAll ns) = false := by
      rw [← Bool.not_eq_true, h.holds_joinAll ht hns hne]
      exact fun hlook => hlook habove
    obtain ⟨e, he, hway⟩ := h.makeDirs_of_open ht hns habove hopen
    -- The directories that were made lie above the file.
    have hfree' : e.look (b ++ ns ++ [c]) ≠ some none := by
      intro hlook
      rcases hway.new _ hlook with hold | hpre
      · exact hfree hold
      · exact absurd hpre.length_le (by simp)
    have hensured : d.ensureDir (q.joinAll ns) = (e, .ok ()) := by
      simp only [ensureDir, hholds, he, Bool.false_eq_true, if_false]
    rw [writeWithParents_of_ensured (parent?_joinAll_join hne hns hc) htext hensured]
    exact hwrite hway.becomes hway.dir hfree'
  | some v =>
    cases v with
    | none =>
      rw [h.writeWithParents_of_look ht hns hc (by rw [habove]; exact Option.some_ne_none _)]
      exact hwrite (.refl d) habove hfree
    | some old => exact absurd habove (hopen ns [] (List.append_nil ns).symm old)

end names

/-- What a write leaves at its place when it succeeds. -/
def written (x : Place) (t : Text) : Except Failure Unit → Writes
  | .ok () => [(x, t.toBytes)]
  | .error _ => []

theorem exists_file_of_not_open (h : ¬ d.root.Open b ns) :
    ∃ ms ks old, ns = ms ++ ks ∧ d.look (b ++ ms) = some (some old) := by
  by_contra hno
  refine h fun ms ks hms old hfile => hno ⟨ms, ks, old, hms, hfile⟩

/-- A write changes its own file and no other, and it changes nothing when it fails. -/
theorem Lands.writeWithParents (h : d.Lands p x) (ht : d.Tidy) (t : Text) :
    d.Becomes (written x t (d.writeWithParents p t).2) (d.writeWithParents p t).1 := by
  cases h with
  | below hq hns hc =>
    rename_i q b ns c
    by_cases hdir : d.look (b ++ ns ++ [c]) = some none
    · rw [hq.writeWithParents_of_dir ht hns hc hdir]
      exact .refl d
    · by_cases hopen : d.root.Open b ns
      · obtain ⟨e, he, hbe⟩ := hq.writeWithParents_of_open ht hns hc (t := t) hopen hdir
        rw [he]
        exact hbe
      · obtain ⟨ms, ks, old, hms, hfile⟩ := exists_file_of_not_open hopen
        rw [hq.writeWithParents_of_file ht hns hc hms hfile]
        exact .refl d

/-- A write that is done again later ends in the same way: what was in its way is still there, and
what it has written is a file. -/
theorem Lands.writeWithParents_again {ws : Writes} (h : d.Lands p x) (ht : d.Tidy) {t : Text}
    (he : (d.writeWithParents p t).1.Becomes ws e) (s : Text) :
    (e.writeWithParents p s).2 = (d.writeWithParents p t).2 := by
  have hbe := (h.writeWithParents ht t).trans he
  have hte := hbe.isTidy ht
  have hagain := hbe.lands ht h
  cases h with
  | below hq hns hc =>
    rename_i q b ns c
    have hqe := hbe.enters ht hq
    by_cases hdir : d.look (b ++ ns ++ [c]) = some none
    · rw [hq.writeWithParents_of_dir ht hns hc hdir,
        hqe.writeWithParents_of_dir hte hns hc (hbe.dir _ hdir)]
    · by_cases hopen : d.root.Open b ns
      · obtain ⟨f, hf, hbf⟩ := hq.writeWithParents_of_open ht hns hc (t := t) hopen hdir
        rw [hf] at he ⊢
        have hnew : f.look (b ++ ns ++ [c]) = some (some t.toBytes) :=
          (hbf.file _ _).mpr (.inl (by simp [lastWrite]))
        obtain ⟨old, hold⟩ := he.exists_file hnew
        -- The file that was written can only be there with directories above it.
        have hopen' : e.root.Open b ns := by
          intro ms ks hms c' hfile
          rw [hms, List.append_assoc, List.append_assoc, ← List.append_assoc] at hold
          cases (Node.look_of_append hold (by simp)).symm.trans hfile
        obtain ⟨g, hg, -⟩ := hqe.writeWithParents_of_open hte hns hc (t := s) hopen' (by
          rw [hold]
          exact fun hnone => absurd (Option.some.inj hnone) (Option.some_ne_none old))
        rw [hg]
      · obtain ⟨ms, ks, old, hms, hfile⟩ := exists_file_of_not_open hopen
        obtain ⟨old', hfile'⟩ := hbe.exists_file hfile
        rw [hq.writeWithParents_of_file ht hns hc hms hfile,
          hqe.writeWithParents_of_file hte hns hc hms hfile']

theorem Lands.bytes (h : d.Lands p x) (ht : d.Tidy) {content : ByteArray} :
    d.bytesFrom d.here p = .ok content ↔ d.look x = some (some content) := by
  cases h with
  | below hq hns hc =>
    rw [← joinAll_concat, List.append_assoc]
    exact hq.bytes_joinAll ht (isName_concat hns hc) (by simp)

theorem Lands.resolve (h : d.Lands p x) (ht : d.Tidy) (hx : d.look x ≠ none) :
    d.resolve p = .ok (.node x) := by
  cases h with
  | below hq hns hc =>
    obtain ⟨v, hv⟩ := Option.ne_none_iff_exists'.mp hx
    rw [List.append_assoc] at hv ⊢
    rw [← joinAll_concat]
    exact hq.resolve_joinAll ht (isName_concat hns hc) (by simp) hv

end CleanCopy.Disk
