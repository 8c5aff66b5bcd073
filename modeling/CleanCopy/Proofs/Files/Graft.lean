import CleanCopy.Proofs.Files.Write

namespace CleanCopy

open CleanCopy.Path

namespace Node

variable {root old new tree : Node} {b x y : Place} {ns : List Text}

theorem get?_put (hb : root.get? b = some old) : (root.put b new).get? b = some new := by
  induction b generalizing root with
  | nil =>
    rw [put_nil]
    rfl
  | cons n b ih =>
    obtain ⟨es, child, rfl, hl, hbelow⟩ := exists_entry hb
    rw [put_of_lookup hl, get?]
    change ((insertEntry n _ es).lookup n).bind _ = _
    rw [lookup_insertEntry, if_pos rfl]
    exact ih hbelow

theorem put_append (hb : root.get? b = some old) :
    root.put (b ++ y) new = root.put b (old.put y new) := by
  induction b generalizing root with
  | nil =>
    obtain rfl := Option.some.inj hb
    rw [put_nil, List.nil_append]
  | cons n b ih =>
    obtain ⟨es, child, rfl, hl, hbelow⟩ := exists_entry hb
    rw [List.cons_append, put_of_lookup hl, put_of_lookup hl, ih hbelow]

theorem sight_put_of_off (hb : root.get? b = some old) (h : ¬ b <+: x) :
    (root.put b new).sight x = root.sight x := by
  induction b generalizing root x with
  | nil => exact absurd List.nil_prefix h
  | cons n b ih =>
    obtain ⟨es, child, rfl, hl, hbelow⟩ := exists_entry hb
    rw [put_of_lookup hl]
    cases x with
    | nil => rfl
    | cons m x =>
      rw [sight_cons, sight_cons, lookup_insertEntry]
      by_cases hm : m = n
      · subst hm
        rw [if_pos rfl, hl]
        exact ih hbelow fun hpre => h (List.cons_prefix_cons.mpr ⟨rfl, hpre⟩)
      · rw [if_neg hm]

theorem get?_put_of_apart (h : ¬ b <+: x) (h' : ¬ x <+: b) :
    (root.put b new).get? x = root.get? x := by
  induction b generalizing root x with
  | nil => exact absurd List.nil_prefix h
  | cons n b ih =>
    cases x with
    | nil => exact absurd List.nil_prefix h'
    | cons m x =>
      cases root with
      | file c => rfl
      | link t => rfl
      | dir es =>
        have hother (node : Node) (hm : m ≠ n) :
            (dir (insertEntry n node es)).get? (m :: x) = (dir es).get? (m :: x) := by
          change ((insertEntry n node es).lookup m).bind _ = (es.lookup m).bind _
          rw [lookup_insertEntry, if_neg hm]
        cases hl : es.lookup n with
        | some child =>
          rw [put_of_lookup hl]
          by_cases hm : m = n
          · subst hm
            change ((insertEntry m _ es).lookup m).bind _ = (es.lookup m).bind _
            rw [lookup_insertEntry, if_pos rfl, hl]
            exact ih (fun hp => h (List.cons_prefix_cons.mpr ⟨rfl, hp⟩))
              fun hp => h' (List.cons_prefix_cons.mpr ⟨rfl, hp⟩)
          · exact hother _ hm
        | none =>
          rw [put_of_free hl]
          split
          · rename_i hb
            refine hother _ fun hm => h ?_
            rw [hm, hb]
            exact List.cons_prefix_cons.mpr ⟨rfl, List.nil_prefix⟩
          · rfl

theorem sight_append (hb : root.get? b = some tree) : root.sight (b ++ y) = tree.sight y := by
  rw [sight, get?_append, hb]
  rfl

theorem look_append (hb : root.get? b = some tree) : root.look (b ++ y) = tree.look y := by
  rw [look_eq_sight, look_eq_sight, sight_append hb]

end Node

/-- A target in the tree at a place, seen from the root. -/
def Target.shift (b : Place) : Target → Target
  | node x => node (b ++ x)
  | free x => free (b ++ x)

/-- How far steps lead in the tree at a place, seen from the root. -/
def Reach.shift (b : Place) : Reach → Reach
  | target t => target (t.shift b)
  | link dir path rest => link (b ++ dir) path rest
  | failed e => failed e

namespace Node

variable {root tree : Node} {b : Place} {ns : List Text}

/-- Names lead below a place as they lead in the tree there. -/
theorem follow_names_at (hb : root.get? b = some tree) (x : Place) (ns : List Text) :
    root.follow (b ++ x) (ns.map .name) = (tree.follow x (ns.map .name)).shift b := by
  induction ns generalizing x with
  | nil => rfl
  | cons n ns ih =>
    rw [List.map_cons, follow, follow, get?_append, hb, Option.bind_some]
    cases tree.get? x with
    | none => rfl
    | some node =>
      cases node with
      | file c => rfl
      | link t => rfl
      | dir es =>
        dsimp only
        cases es.lookup n with
        | none =>
          dsimp only
          rw [List.append_assoc]
          split <;> rfl
        | some child =>
          cases child with
          | link path => rfl
          | file c =>
            dsimp only
            rw [List.append_assoc]
            exact ih _
          | dir es' =>
            dsimp only
            rw [List.append_assoc]
            exact ih _

end Node

namespace Disk

/-- A tree by itself. -/
def ofTree (tree : Node) : Disk := { root := tree }

/-- A path that leads to a directory with a tree without links in it. -/
structure Hosts (d : Disk) (p : Path) (b : Place) (tree : Node) : Prop where
  reaches : d.Reaches p b
  get : d.root.get? b = some tree
  tidy : tree.Tidy

/-- There is another tree at a place, and nothing else is another. -/
structure Grafts (d : Disk) (b : Place) (tree : Node) (e : Disk) : Prop where
  here : e.here = d.here
  get : e.root.get? b = some tree
  off : ∀ x, ¬ b <+: x → e.root.sight x = d.root.sight x

variable {d e f : Disk} {p : Path} {b x y : Place} {tree old new : Node} {n c : Text}
  {ns : List Text}

theorem Grafts.refl (h : d.root.get? b = some tree) : d.Grafts b tree d := ⟨rfl, h, fun _ _ => rfl⟩

theorem Grafts.trans (h : d.Grafts b old e) (h' : e.Grafts b new f) : d.Grafts b new f :=
  ⟨h'.here.trans h.here, h'.get, fun x hx => (h'.off x hx).trans (h.off x hx)⟩

theorem grafts_withNode (h : d.root.get? b = some tree) (y : Place) (new : Node) :
    d.Grafts b (tree.put y new) (d.withNode (b ++ y) new) where
  here := rfl
  get := by rw [withNode, Node.put_append h, Node.get?_put h]
  off x hx := by rw [withNode, Node.put_append h, Node.sight_put_of_off h hx]

theorem Grafts.extends (h : d.Grafts b new e) (hd : d.root.get? b = some old)
    (hnew : old.Extends new) : d.Extends e := by
  have hat (y : Place) : e.root.sight (b ++ y) = new.sight y := Node.sight_append h.get
  have hwas (y : Place) : d.root.sight (b ++ y) = old.sight y := Node.sight_append hd
  refine ⟨h.here, fun x es hx => ?_, fun x path hx => ?_, fun x c hx => ?_⟩ <;>
    by_cases hpre : b <+: x
  · obtain ⟨y, rfl⟩ := hpre
    rw [hat]
    exact hnew.dir y es (hwas y ▸ hx)
  · rwa [h.off x hpre]
  · obtain ⟨y, rfl⟩ := hpre
    rw [hat]
    exact hnew.link y path (hwas y ▸ hx)
  · rwa [h.off x hpre]
  · obtain ⟨y, rfl⟩ := hpre
    rw [hat]
    exact hnew.file y c (hwas y ▸ hx)
  · exact ⟨c, by rwa [h.off x hpre]⟩

theorem Hosts.graft (h : d.Hosts p b old) (hg : d.Grafts b new e) (hx : old.Extends new)
    (ht : new.Tidy) : e.Hosts p b new :=
  ⟨(hg.extends h.get hx).reaches h.reaches, hg.get, ht⟩

section hosts
variable (h : d.Hosts p b tree)
include h

theorem Hosts.sight : tree.sight [] = some (.dir []) := by
  have := h.reaches.dir
  rwa [← List.append_nil b, Node.sight_append h.get] at this

theorem Hosts.ofTree : (ofTree tree).Hosts ⟨[]⟩ [] tree :=
  ⟨reaches_nil h.sight, rfl, h.tidy⟩

theorem Hosts.tidy_ofTree : (Disk.ofTree tree).Tidy := by
  refine ⟨h.tidy, ?_⟩
  rw [look, Disk.ofTree, Node.look_eq_sight, h.sight]
  rfl

theorem Hosts.resolve_approach (hns : ∀ n ∈ ns, n.IsName) :
    d.root.resolve maxLinks d.here (p.joinAll ns).approach =
      (tree.resolve maxLinks [] (ns.map .name)).map (Target.shift b) := by
  obtain ⟨k, hk⟩ := Node.exists_resolve_append h.reaches.approach (ns.map .name)
  have hf := Node.follow_names_at h.get [] ns
  rw [List.append_nil] at hf
  rw [approach_joinAll hns, hk]
  cases hr : tree.follow [] (ns.map .name) with
  | target t =>
    rw [hr] at hf
    rw [Node.resolve_of_target hf, Node.resolve_of_target hr]
    rfl
  | failed e =>
    rw [hr] at hf
    rw [Node.resolve_of_failed hf, Node.resolve_of_failed hr]
    rfl
  | link dir path rest => exact absurd hr (Node.follow_ne_link h.tidy)

theorem Hosts.approach_eq (hns : ∀ n ∈ ns, n.IsName) :
    d.root.resolve maxLinks d.here (p.joinAll ns).approach =
      ((Disk.ofTree tree).root.resolve maxLinks (Disk.ofTree tree).here
        (joinAll ⟨[]⟩ ns).approach).map (Target.shift b) := by
  rw [h.resolve_approach hns, h.ofTree.resolve_approach hns]
  cases tree.resolve maxLinks [] (ns.map .name) with
  | error e => rfl
  | ok t => cases t <;> rfl

theorem Hosts.resolve (hns : ∀ n ∈ ns, n.IsName) (hne : ns ≠ []) :
    d.resolve (p.joinAll ns) =
      ((Disk.ofTree tree).resolve (joinAll ⟨[]⟩ ns)).map (Target.shift b) := by
  rw [Disk.resolve, Disk.resolve, resolveFrom, resolveFrom,
    if_neg (by simpa using joinAll_text_ne_nil hne hns),
    if_neg (by simpa using joinAll_text_ne_nil hne hns), steps_joinAll hns hne,
    steps_joinAll hns hne]
  exact h.approach_eq hns

theorem Hosts.node_eq (hns : ∀ n ∈ ns, n.IsName) (hne : ns ≠ []) :
    d.node (p.joinAll ns) = (Disk.ofTree tree).node (joinAll ⟨[]⟩ ns) := by
  have hr := h.resolve hns hne
  rw [Disk.resolve, Disk.resolve] at hr
  rw [node, node, nodeFrom, nodeFrom, hr]
  cases (Disk.ofTree tree).resolveFrom (Disk.ofTree tree).here (joinAll ⟨[]⟩ ns) with
  | error e => rfl
  | ok t =>
    cases t with
    | free x => rfl
    | node x =>
      have hget : d.root.get? (b ++ x) = (Disk.ofTree tree).root.get? x := by
        rw [Node.get?_append, h.get]
        rfl
      simp only [Except.map, Target.shift, hget]

theorem Hosts.holds_eq (hns : ∀ n ∈ ns, n.IsName) (hne : ns ≠ []) :
    d.holds (p.joinAll ns) = (Disk.ofTree tree).holds (joinAll ⟨[]⟩ ns) := by
  rw [holds, holds, h.node_eq hns hne]

theorem Hosts.isDir_eq (hns : ∀ n ∈ ns, n.IsName) (hne : ns ≠ []) :
    d.isDir (p.joinAll ns) = (Disk.ofTree tree).isDir (joinAll ⟨[]⟩ ns) := by
  rw [isDir, isDir, h.node_eq hns hne]

theorem Hosts.dirAround_eq (hns : ∀ n ∈ ns, n.IsName) (hn : n.IsName) :
    d.dirAround ((p.joinAll ns).join ⟨n⟩) =
      ((Disk.ofTree tree).dirAround ((joinAll ⟨[]⟩ ns).join ⟨n⟩)).map (b ++ ·) := by
  rw [dirAround, dirAround, dirAroundFrom, dirAroundFrom, bare_join hn, bare_join hn, steps_join hn,
    steps_join hn, List.dropLast_concat, List.dropLast_concat, h.approach_eq hns]
  cases (Disk.ofTree tree).root.resolve maxLinks (Disk.ofTree tree).here
      (joinAll ⟨[]⟩ ns).approach with
  | error e => rfl
  | ok t =>
    cases t with
    | free x => rfl
    | node x =>
      change (if (d.root.get? (b ++ x)).any Node.isDir then Except.ok (b ++ x)
        else .error FileError.notDirectory) = _
      rw [Node.get?_append, h.get, Option.bind_some]
      change _ = Except.map _ (if (tree.get? x).any Node.isDir then Except.ok x
        else .error FileError.notDirectory)
      split <;> rfl

theorem Hosts.wantsDir_eq (hns : ∀ n ∈ ns, n.IsName) (hc : c.IsName) (links : Nat) :
    d.wantsDir links d.here ((p.joinAll ns).join ⟨c⟩) = false := by
  cases links with
  | zero => rfl
  | succ links =>
    have haround := h.dirAround_eq hns hc
    rw [dirAround] at haround
    rw [wantsDir, haround]
    cases (Disk.ofTree tree).dirAround ((joinAll ⟨[]⟩ ns).join ⟨c⟩) with
    | error e => rfl
    | ok x =>
      have hlast : ((p.joinAll ns).join ⟨c⟩).text.getLast? ≠ some '/' := getLast?_join_ne hc
      simp only [Except.map, hlast, decide_false, Bool.false_or, steps_join hc, List.getLast?_concat]
      split
      · rename_i path hlink
        rw [List.append_assoc, Node.get?_append, h.get] at hlink
        exact absurd (h.tidy.get? hlink).1 id
      · rfl

/-- A directory below another is made as it is in the tree there. -/
theorem Hosts.makeDir (hns : ∀ n ∈ ns, n.IsName) (hn : n.IsName) :
    (∃ err, d.makeDir ((p.joinAll ns).join ⟨n⟩) = .error err ∧
      (Disk.ofTree tree).makeDir ((joinAll ⟨[]⟩ ns).join ⟨n⟩) = .error err) ∨
    ∃ e new, d.makeDir ((p.joinAll ns).join ⟨n⟩) = .ok e ∧
      (Disk.ofTree tree).makeDir ((joinAll ⟨[]⟩ ns).join ⟨n⟩) = .ok (Disk.ofTree new) ∧
      d.Grafts b new e := by
  rw [makeDir_join hn, makeDir_join hn, h.dirAround_eq hns hn]
  cases (Disk.ofTree tree).dirAround ((joinAll ⟨[]⟩ ns).join ⟨n⟩) with
  | error err => exact .inl ⟨err, rfl, rfl⟩
  | ok x =>
    dsimp only [Except.map]
    rw [List.append_assoc, Node.get?_append, h.get, Option.bind_some]
    change (∃ err, _ ∧ (if (tree.get? (x ++ [n])).isSome then Except.error FileError.present
      else .ok _) = _) ∨ ∃ e new, _ ∧ (if (tree.get? (x ++ [n])).isSome then _ else _) = _ ∧ _
    split
    · exact .inl ⟨_, rfl, rfl⟩
    · exact .inr ⟨_, _, rfl, rfl, grafts_withNode h.get _ _⟩

theorem Hosts.of_makeDirsAlong {ps : List Path} {r : Except FileError Unit}
    (hl : (Disk.ofTree tree).makeDirsAlong ps = (Disk.ofTree new, r)) (hg : d.Grafts b new e) :
    e.Hosts p b new := by
  have hwide := (Disk.ofTree tree).makeDirsAlong_widens ps
  have htidy := (h.tidy_ofTree.makeDirsAlong_becomes ps).isTidy h.tidy_ofTree
  rw [hl] at hwide htidy
  exact h.graft hg hwide.grows.root htidy.root

theorem Hosts.makeDirsAlong {k k' : Nat} (hns : ∀ n ∈ ns, n.IsName) (hne : ns ≠ [])
    (hk : ns.length ≤ k) (hk' : ns.length ≤ k') :
    ∃ e new r, d.makeDirsAlong ((p.joinAll ns).ancestors k) = (e, r) ∧
      (Disk.ofTree tree).makeDirsAlong ((joinAll ⟨[]⟩ ns).ancestors k') = (Disk.ofTree new, r) ∧
      d.Grafts b new e := by
  induction ns using List.reverseRecOn generalizing k k' with
  | nil => exact absurd rfl hne
  | append_singleton ms m ih =>
    have hm : m.IsName := hns m (by simp)
    have hms : ∀ n ∈ ms, n.IsName := fun n hn => hns n (List.mem_append_left _ hn)
    have htext {q : Path} : ((q.joinAll ms).join ⟨m⟩).text ≠ [] := join_ne_nil hm
    rw [List.length_append, List.length_singleton] at hk hk'
    obtain ⟨k, rfl⟩ : ∃ l, k = l + 1 := Nat.exists_eq_succ_of_ne_zero (by omega)
    obtain ⟨k', rfl⟩ : ∃ l, k' = l + 1 := Nat.exists_eq_succ_of_ne_zero (by omega)
    have hk : ms.length ≤ k := by omega
    have hk' : ms.length ≤ k' := by omega
    rw [joinAll_concat, joinAll_concat, ancestors, ancestors]
    have hisDir {d : Disk} {tree : Node} (h : d.Hosts p b tree) := h.isDir_eq hns hne
    simp only [joinAll_concat] at hisDir
    rcases h.makeDir hms hm with ⟨err, hd, hl⟩ | ⟨e, new, hd, hl, hg⟩
    · by_cases herr : err = .missing
      · subst herr
        -- In the directory itself nothing that lies above the name is missing.
        have hne' : ms ≠ [] := by
          rintro rfl
          exact h.reaches.makeDir_ne_missing hm hd
        rw [parent?_joinAll_join hne' hms hm, parent?_joinAll_join hne' hms hm,
          makeDirsAlong_cons_of_missing htext hd, makeDirsAlong_cons_of_missing htext hl]
        obtain ⟨e, mid, r, hd', hl', hg⟩ := ih hms hne' hk hk'
        dsimp only
        rw [hd', hl']
        cases r with
        | error err => exact ⟨e, mid, _, rfl, rfl, hg⟩
        | ok u =>
          have he := h.of_makeDirsAlong hl' hg
          rcases he.makeDir hms hm with ⟨err, hd, hl⟩ | ⟨f, new, hd, hl, hg'⟩
          · simp only [hd, hl, hisDir he]
            exact ⟨e, mid, _, rfl, rfl, hg⟩
          · simp only [hd, hl]
            exact ⟨f, new, _, rfl, rfl, hg.trans hg'⟩
      · rw [makeDirsAlong_of_error htext hd herr, makeDirsAlong_of_error htext hl herr, hisDir h]
        exact ⟨d, tree, _, rfl, rfl, .refl h.get⟩
    · rw [makeDirsAlong_of_ok htext hd, makeDirsAlong_of_ok htext hl]
      exact ⟨e, new, _, rfl, rfl, hg⟩

theorem Hosts.makeDirs (hns : ∀ n ∈ ns, n.IsName) (hne : ns ≠ []) :
    ∃ e new r, d.makeDirs (p.joinAll ns) = (e, r) ∧
      (Disk.ofTree tree).makeDirs (joinAll ⟨[]⟩ ns) = (Disk.ofTree new, r) ∧
      d.Grafts b new e ∧ e.Hosts p b new := by
  obtain ⟨e, new, r, hd, hl, hg⟩ := h.makeDirsAlong hns hne (length_le_text_joinAll (p := p) hns)
    (length_le_text_joinAll (p := ⟨[]⟩) hns)
  exact ⟨e, new, r, hd, hl, hg, h.of_makeDirsAlong hl hg⟩

theorem Hosts.writeBytes (hns : ∀ n ∈ ns, n.IsName) (hc : c.IsName) (content : ByteArray) :
    (∃ err, d.writeBytes ((p.joinAll ns).join ⟨c⟩) content = .error err ∧
      (Disk.ofTree tree).writeBytes ((joinAll ⟨[]⟩ ns).join ⟨c⟩) content = .error err) ∨
    ∃ e new, d.writeBytes ((p.joinAll ns).join ⟨c⟩) content = .ok e ∧
      (Disk.ofTree tree).writeBytes ((joinAll ⟨[]⟩ ns).join ⟨c⟩) content = .ok (Disk.ofTree new) ∧
      d.Grafts b new e := by
  have hresolve := h.resolve (isName_concat hns hc) (by simp)
  rw [joinAll_concat, joinAll_concat] at hresolve
  rw [Disk.writeBytes, Disk.writeBytes, h.wantsDir_eq hns hc, h.ofTree.wantsDir_eq hns hc, hresolve]
  cases (Disk.ofTree tree).resolve ((joinAll ⟨[]⟩ ns).join ⟨c⟩) with
  | error err => exact .inl ⟨err, rfl, rfl⟩
  | ok t =>
    cases t with
    | free x => exact .inr ⟨_, _, rfl, rfl, grafts_withNode h.get x _⟩
    | node x =>
      have hget : d.root.get? (b ++ x) = (Disk.ofTree tree).root.get? x := by
        rw [Node.get?_append, h.get]
        rfl
      simp only [Except.map, Target.shift, hget, Bool.false_eq_true, if_false]
      split
      · exact .inr ⟨_, _, rfl, rfl, grafts_withNode h.get x _⟩
      · exact .inl ⟨_, rfl, rfl⟩

theorem Hosts.write (hns : ∀ n ∈ ns, n.IsName) (hc : c.IsName) (t : Text) :
    ∃ e new r r', d.write ((p.joinAll ns).join ⟨c⟩) t = (e, r) ∧
      (Disk.ofTree tree).write ((joinAll ⟨[]⟩ ns).join ⟨c⟩) t = (Disk.ofTree new, r') ∧
      d.Grafts b new e ∧ r.isOk = r'.isOk := by
  rw [Disk.write, Disk.write]
  rcases h.writeBytes hns hc t.toBytes with ⟨err, hd, hl⟩ | ⟨e, new, hd, hl, hg⟩
  · rw [hd, hl]
    exact ⟨d, tree, _, _, rfl, rfl, .refl h.get, rfl⟩
  · rw [hd, hl]
    exact ⟨e, new, _, _, rfl, rfl, hg, rfl⟩

theorem Hosts.ensureDir (hns : ∀ n ∈ ns, n.IsName) (hne : ns ≠ []) :
    ∃ e mid, d.Grafts b mid e ∧ e.Hosts p b mid ∧
      (d.ensureDir (p.joinAll ns) = (e, .ok ()) ∧
          (Disk.ofTree tree).ensureDir (joinAll ⟨[]⟩ ns) = (Disk.ofTree mid, .ok ()) ∨
        ∃ err err', d.ensureDir (p.joinAll ns) = (e, .error err) ∧
          (Disk.ofTree tree).ensureDir (joinAll ⟨[]⟩ ns) = (Disk.ofTree mid, .error err')) := by
  have hholds := h.holds_eq hns hne
  cases hl : (Disk.ofTree tree).holds (joinAll ⟨[]⟩ ns) with
  | true =>
    refine ⟨d, tree, .refl h.get, h, .inl ⟨?_, ?_⟩⟩
    · rw [Disk.ensureDir, hholds, hl, if_pos rfl]
    · rw [Disk.ensureDir, hl, if_pos rfl]
  | false =>
    rw [hl] at hholds
    obtain ⟨e, mid, r, hmd, hml, hg, he⟩ := h.makeDirs hns hne
    simp only [Disk.ensureDir, hholds, hl, hmd, hml, Bool.false_eq_true, if_false]
    cases r with
    | ok u => exact ⟨e, mid, hg, he, .inl ⟨rfl, rfl⟩⟩
    | error err => exact ⟨e, mid, hg, he, .inr ⟨_, _, rfl, rfl⟩⟩

/-- A file below a directory is written, or not, as it is in the tree there. -/
theorem Hosts.writeWithParents (hns : ∀ n ∈ ns, n.IsName) (hc : c.IsName) (t : Text) :
    ∃ e new r r', d.writeWithParents ((p.joinAll ns).join ⟨c⟩) t = (e, r) ∧
      (Disk.ofTree tree).writeWithParents ((joinAll ⟨[]⟩ ns).join ⟨c⟩) t = (Disk.ofTree new, r') ∧
      d.Grafts b new e ∧ r.isOk = r'.isOk := by
  by_cases hne : ns = []
  · subst hne
    have hwrite := h.write hns hc t
    rw [joinAll_nil, joinAll_nil] at hwrite ⊢
    rwa [h.reaches.writeWithParents_join hc, h.ofTree.reaches.writeWithParents_join hc]
  · have htext {q : Path} : (q.joinAll ns).text ≠ [] := joinAll_text_ne_nil hne hns
    have hparent {q : Path} : ((q.joinAll ns).join ⟨c⟩).parent? = some (q.joinAll ns) :=
      parent?_joinAll_join hne hns hc
    obtain ⟨e, mid, hg, he, ⟨hd, hl⟩ | ⟨err, err', hd, hl⟩⟩ := h.ensureDir hns hne
    · obtain ⟨f, new, r, r', hwd, hwl, hg', hr⟩ := he.write hns hc t
      rw [writeWithParents_of_ensured hparent htext hd, writeWithParents_of_ensured hparent htext hl]
      exact ⟨f, new, r, r', hwd, hwl, hg.trans hg', hr⟩
    · rw [writeWithParents_of_not_ensured hparent htext hd,
        writeWithParents_of_not_ensured hparent htext hl]
      exact ⟨e, mid, _, _, rfl, rfl, hg, rfl⟩

theorem Hosts.of_writeWithParents {t : Text} {r : Except Failure Unit}
    (hns : ∀ n ∈ ns, n.IsName) (hc : c.IsName) (hg : d.Grafts b new e)
    (hl : (Disk.ofTree tree).writeWithParents ((joinAll ⟨[]⟩ ns).join ⟨c⟩) t = (Disk.ofTree new, r)) :
    e.Hosts p b new := by
  have hgrows := (Disk.ofTree tree).writeWithParents_extends ((joinAll ⟨[]⟩ ns).join ⟨c⟩) t
  have henters := h.tidy_ofTree.reaches_iff.mp h.ofTree.reaches
  have hbe := (Lands.below henters hns hc).writeWithParents h.tidy_ofTree t
  have htidy := hbe.isTidy h.tidy_ofTree
  rw [hl] at hgrows htidy
  exact h.graft hg hgrows.root htidy.root

end hosts

theorem Makes.tidy_at (h : d.Makes p x n e) (hy : d.root.get? y = some tree) (ht : tree.Tidy) :
    ∃ new, e.root.get? y = some new ∧ new.Tidy := by
  rw [h.eq, withNode]
  by_cases hpre : y <+: x ++ [n]
  · obtain ⟨z, hz⟩ := hpre
    rw [← hz, Node.put_append hy, Node.get?_put hy]
    refine ⟨_, rfl, ht.put trivial ?_⟩
    -- The names lead through the tree to the directory, and then to the new one.
    rcases List.eq_nil_or_concat' z with rfl | ⟨ms, m, rfl⟩
    · exact fun _ hm => absurd hm List.not_mem_nil
    · rw [← List.append_assoc] at hz
      obtain ⟨hx, hm⟩ := List.append_inj' hz rfl
      obtain ⟨es, hes⟩ := Node.sight_eq_dir.mp h.dir
      rw [← hx, Node.get?_append, hy] at hes
      exact isName_concat (ht.get? hes).2 (List.singleton_inj.mp hm ▸ h.isName)
  · refine ⟨tree, ?_, ht⟩
    rw [Node.get?_put_of_apart ?_ hpre, hy]
    rintro ⟨z, rfl⟩
    rw [Node.get?_append, Node.sight_eq_none.mp h.free] at hy
    cases hy

/-- Making directories brings no links and no disorder into a tree. -/
theorem makeDirsAlong_tidy_at (ps : List Path) (hy : d.root.get? y = some tree) (ht : tree.Tidy) :
    ∃ new, (d.makeDirsAlong ps).1.root.get? y = some new ∧ new.Tidy := by
  refine makeDirsAlong_induction (R := fun d e => ∀ y tree, d.root.get? y = some tree → tree.Tidy →
    ∃ new, e.root.get? y = some new ∧ new.Tidy) (fun d y tree hy ht => ⟨tree, hy, ht⟩)
    (fun h h' y tree hy ht => ?_) (fun h y tree hy ht => ?_) d ps y tree hy ht
  · obtain ⟨mid, hmid, hm⟩ := h y tree hy ht
    exact h' y mid hmid hm
  · obtain ⟨x, n, hmakes⟩ := exists_makes h
    exact hmakes.tidy_at hy ht

end Disk

end CleanCopy
