import CleanCopy.Proofs.Files.Links

namespace CleanCopy

open CleanCopy.Path

namespace Node

variable {root mid big new : Node} {x y : Place} {n : Text} {steps rest : List Component}
  {links : Nat} {c : ByteArray}

/-- A tree that has grown: directories and links are where they were, and so are files, though
perhaps with other bytes. -/
structure Extends (root big : Node) : Prop where
  dir : ∀ x es, root.sight x = some (.dir es) → big.sight x = some (.dir es)
  link : ∀ x path, root.sight x = some (.link path) → big.sight x = some (.link path)
  file : ∀ x c, root.sight x = some (.file c) → ∃ c', big.sight x = some (.file c')

namespace Extends

theorem refl (root : Node) : root.Extends root := ⟨fun _ _ => id, fun _ _ => id, fun _ c h => ⟨c, h⟩⟩

theorem trans (h : root.Extends mid) (h' : mid.Extends big) : root.Extends big where
  dir x es hx := h'.dir x es (h.dir x es hx)
  link x path hx := h'.link x path (h.link x path hx)
  file x c hx := by
    obtain ⟨c', hc⟩ := h.file x c hx
    exact h'.file x c' hc

/-- Steps that lead to a node or to a link do so in the grown tree. -/
theorem follow (h : root.Extends big) {r : Reach} (hr : root.follow x steps = r)
    (hfree : ∀ y, r ≠ .target (.free y)) (hfail : ∀ e, r ≠ .failed e) : big.follow x steps = r := by
  induction steps generalizing x with
  | nil => exact hr
  | cons step rest ih =>
    rw [follow_cons] at hr ⊢
    cases hx : root.sight x with
    | none => exact absurd (hx ▸ hr).symm (hfail _)
    | some node =>
      rw [hx] at hr
      cases node with
      | file c => exact absurd hr.symm (hfail _)
      | link path => exact absurd hr.symm (hfail _)
      | dir es =>
        rw [h.dir x es hx]
        cases step with
        | root | here | up => exact ih hr
        | name n =>
          dsimp only at hr ⊢
          cases hn : root.sight (x ++ [n]) with
          | none =>
            rw [hn] at hr
            dsimp only at hr
            split at hr
            · exact absurd hr.symm (hfree _)
            · exact absurd hr.symm (hfail _)
          | some node =>
            rw [hn] at hr
            cases node with
            | dir es' =>
              rw [h.dir _ _ hn]
              exact ih hr
            | link path =>
              rw [h.link _ _ hn]
              exact hr
            | file c =>
              obtain ⟨c', hc⟩ := h.file _ _ hn
              rw [hc]
              exact ih hr

/-- What a path leads to it leads to in the grown tree. -/
theorem resolve (h : root.Extends big) (hr : root.resolve links x steps = .ok (.node y)) :
    big.resolve links x steps = .ok (.node y) := by
  fun_induction Node.resolve root links x steps with
  | case1 links x steps t hf =>
    obtain rfl := Except.ok.inj hr
    exact resolve_of_target (h.follow hf (fun _ h => by cases h) fun _ h => by cases h) _
  | case2 | case3 | case4 => cases hr
  | case5 x steps dir path more links hpath hf ih =>
    rw [resolve_of_link (h.follow hf (fun _ h => by cases h) fun _ h => by cases h) hpath]
    exact ih hr

end Extends

theorem sight_put_of_free (hx : root.sight x = some (.dir [])) (hfree : root.sight (x ++ [n]) = none)
    (hnew : new.entries = []) :
    (root.put (x ++ [n]) new).sight y = if y = x ++ [n] then some new.emptied else root.sight y := by
  obtain ⟨es, hes⟩ := sight_eq_dir.mp hx
  refine sight_put hes hnew fun old hold => ?_
  rw [sight_eq_none, get?_concat, hes] at hfree
  cases hold.symm.trans hfree

theorem extends_put_of_free (hx : root.sight x = some (.dir []))
    (hfree : root.sight (x ++ [n]) = none) (hnew : new.entries = []) :
    root.Extends (root.put (x ++ [n]) new) := by
  have hkeep {y : Place} {node : Node} (hy : root.sight y = some node) :
      (root.put (x ++ [n]) new).sight y = some node := by
    rw [sight_put_of_free hx hfree hnew, if_neg (by rintro rfl; cases hfree.symm.trans hy), hy]
  exact ⟨fun _ _ => hkeep, fun _ _ => hkeep, fun _ c h => ⟨c, hkeep h⟩⟩

theorem extends_put_of_file (hx : root.sight x = some (.file c)) (c' : ByteArray) :
    root.Extends (root.put x (.file c')) := by
  have hput (y : Place) : (root.put x (.file c')).sight y =
      if y = x then some (.file c') else root.sight y := by
    rcases List.eq_nil_or_concat' x with rfl | ⟨z, n, rfl⟩
    · obtain rfl := Option.some.inj (sight_eq_file.mp hx)
      rw [put_nil]
      cases y with
      | nil => rfl
      | cons n y => rfl
    · have hget := sight_eq_file.mp hx
      rw [get?_concat] at hget
      obtain ⟨node, hz, hl⟩ := Option.bind_eq_some_iff.mp hget
      cases node with
      | file c => cases hl
      | link path => cases hl
      | dir es =>
        refine sight_put hz rfl fun old hold => ?_
        obtain rfl := Option.some.inj (hold.symm.trans hl)
        rfl
  have hkeep {y : Place} {node : Node} (hy : root.sight y = some node) (hne : node ≠ .file c) :
      (root.put x (.file c')).sight y = some node := by
    rw [hput, if_neg (by rintro rfl; exact hne (Option.some.inj (hy.symm.trans hx))), hy]
  refine ⟨fun _ _ h => hkeep h nofun, fun _ _ h => hkeep h nofun, fun y d hy => ?_⟩
  rw [hput]
  split
  · exact ⟨c', rfl⟩
  · exact ⟨d, hy⟩

end Node

namespace Disk

variable {d e f : Disk} {p : Path} {b : Place} {ps : List Path}

/-- A disk whose tree has grown. -/
structure Extends (d e : Disk) : Prop where
  here : e.here = d.here
  root : d.root.Extends e.root

theorem Extends.refl (d : Disk) : d.Extends d := ⟨rfl, .refl d.root⟩

theorem Extends.trans (h : d.Extends e) (h' : e.Extends f) : d.Extends f :=
  ⟨h'.here.trans h.here, h.root.trans h'.root⟩

theorem Extends.reaches (h : d.Extends e) (hp : d.Reaches p b) : e.Reaches p b where
  resolve := by
    rw [h.here]
    exact h.root.resolve hp.resolve
  dir := h.root.dir _ _ hp.dir

theorem Extends.isDir (h : d.Extends e) (hp : d.isDir p = true) : e.isDir p = true := by
  obtain ⟨hne, b, hb⟩ := isDir_iff.mp hp
  exact isDir_iff.mpr ⟨hne, b, h.reaches hb⟩

/-- What has been made are directories, in places that were free. -/
structure Widens (d e : Disk) : Prop where
  grows : d.Extends e
  files : ∀ x c, e.root.look x = some (some c) ↔ d.root.look x = some (some c)

theorem Widens.refl (d : Disk) : d.Widens d := ⟨.refl d, fun _ _ => .rfl⟩

theorem Widens.trans (h : d.Widens e) (h' : e.Widens f) : d.Widens f :=
  ⟨h.grows.trans h'.grows, fun x c => (h'.files x c).trans (h.files x c)⟩

theorem dirAroundFrom_eq_ok {dir x : Place} : d.dirAroundFrom dir p = .ok x ↔
    d.root.resolve maxLinks dir p.bare.steps.dropLast = .ok (.node x) ∧
      d.root.sight x = some (.dir []) := by
  have hdir (y : Place) :
      (d.root.get? y).any Node.isDir = true ↔ d.root.sight y = some (.dir []) := by
    rw [Node.sight_eq_dir]
    cases d.root.get? y with
    | none => simp
    | some node => cases node <;> simp [Node.isDir]
  rw [dirAroundFrom]
  constructor
  · intro h
    split at h
    · rename_i y hy
      split at h
      · rename_i hany
        obtain rfl := Except.ok.inj h
        exact ⟨hy, (hdir y).mp hany⟩
      · cases h
    · cases h
    · cases h
  · rintro ⟨hr, hx⟩
    simp only [hr, (hdir x).mpr hx, if_true]

/-- A directory is made at a free place in one that is there. -/
structure Makes (d : Disk) (p : Path) (x : Place) (n : Text) (e : Disk) : Prop where
  text : p.text ≠ []
  bare : p.bare.text ≠ []
  around : d.root.resolve maxLinks d.here p.bare.steps.dropLast = .ok (.node x)
  dir : d.root.sight x = some (.dir [])
  name : p.bare.steps.getLast? = some (.name n)
  free : d.root.sight (x ++ [n]) = none
  eq : e = d.withNode (x ++ [n]) (.dir [])

theorem exists_makes (h : d.makeDir p = .ok e) : ∃ x n, d.Makes p x n e := by
  rw [makeDir] at h
  split at h
  · cases h
  · rename_i hp
    split at h
    · cases h
    · rename_i hbare
      split at h
      · cases h
      · rename_i x n hx hname
        split at h
        · cases h
        · rename_i hfree
          obtain ⟨haround, hdir⟩ := dirAroundFrom_eq_ok.mp hx
          exact ⟨x, n, fun hnil => hp (List.isEmpty_iff.mpr hnil),
            fun hnil => hbare (List.isEmpty_iff.mpr hnil), haround, hdir, hname,
            Node.sight_eq_none.mpr (by simpa using hfree), (Except.ok.inj h).symm⟩
      · cases h

section makes
variable {x : Place} {n : Text} (h : d.Makes p x n e)
include h

theorem Makes.sight_eq (y : Place) :
    e.root.sight y = if y = x ++ [n] then some (.dir []) else d.root.sight y := by
  rw [h.eq]
  exact Node.sight_put_of_free h.dir h.free rfl

theorem Makes.isName : n.IsName := isName_of_mem_steps (List.mem_of_getLast? h.name)

theorem Makes.widens : d.Widens e where
  grows := by
    rw [h.eq]
    exact ⟨rfl, Node.extends_put_of_free h.dir h.free rfl⟩
  files y c := by
    rw [Node.look_eq_sight, h.sight_eq, Node.look_eq_sight]
    split
    · rename_i hy
      rw [hy, h.free]
      exact iff_of_false nofun nofun
    · rfl

theorem Makes.resolve_bare : e.root.resolve maxLinks e.here p.bare.steps = .ok (.node (x ++ [n])) := by
  obtain ⟨front, hfront⟩ := List.getLast?_eq_some_iff.mp h.name
  have haround := h.around
  rw [hfront, List.dropLast_concat] at haround
  rw [hfront, h.widens.grows.here]
  refine Node.resolve_append (h.widens.grows.root.resolve haround) ?_
  rw [Node.follow_cons, h.widens.grows.root.dir _ _ h.dir]
  simp only [h.sight_eq, if_true]
  rfl

/-- Slashes at the end of the path ask for the directory that has just been made. -/
theorem Makes.reaches : e.Reaches p (x ++ [n]) := by
  have hdir : e.root.sight (x ++ [n]) = some (.dir []) := by rw [h.sight_eq, if_pos rfl]
  obtain ⟨hs, hsteps, hh⟩ := steps_bare h.bare
  refine ⟨?_, hdir⟩
  rw [hsteps]
  exact (Node.resolve_append_idle hh hdir).mpr h.resolve_bare

end makes

/-- What making one directory does to a disk, making several does too. -/
theorem makeDirsAlong_induction {R : Disk → Disk → Prop} (hrefl : ∀ d, R d d)
    (htrans : ∀ {d e f}, R d e → R e f → R d f)
    (hstep : ∀ {d e p}, d.makeDir p = .ok e → R d e) (d : Disk) (ps : List Path) :
    R d (d.makeDirsAlong ps).1 := by
  induction ps with
  | nil => exact hrefl d
  | cons p above ih =>
    rw [makeDirsAlong]
    split
    · exact hrefl d
    · split
      · rename_i e he
        exact hstep he
      · split
        · rename_i e err he
          rwa [he] at ih
        · rename_i e he
          rw [he] at ih
          split
          · rename_i f hf
            exact htrans ih (hstep hf)
          · exact ih
      · exact hrefl d

theorem makeDirsAlong_widens (d : Disk) (ps : List Path) : d.Widens (d.makeDirsAlong ps).1 := by
  refine makeDirsAlong_induction Widens.refl Widens.trans (fun h => ?_) d ps
  obtain ⟨x, n, hmakes⟩ := exists_makes h
  exact hmakes.widens

theorem makeDirs_widens (d : Disk) (p : Path) : d.Widens (d.makeDirs p).1 :=
  d.makeDirsAlong_widens _

theorem makeDirsAlong_ok {above : List Path} (h : d.makeDirsAlong (p :: above) = (e, .ok ())) :
    p.text = [] ∨ e.isDir p = true := by
  have hmake {d e : Disk} (h : d.makeDir p = .ok e) : e.isDir p = true := by
    obtain ⟨x, n, hmakes⟩ := exists_makes h
    exact isDir_iff.mpr ⟨hmakes.text, _, hmakes.reaches⟩
  have hthere {d e : Disk} {err : FileError}
      (h : (d, if d.isDir p then Except.ok () else .error err) = (e, .ok ())) : e.isDir p = true := by
    obtain ⟨rfl, h⟩ := Prod.mk.inj h
    by_contra hdir
    rw [if_neg hdir] at h
    cases h
  rw [makeDirsAlong] at h
  split at h
  · rename_i hp
    exact .inl (List.isEmpty_iff.mp hp)
  · right
    split at h
    · rename_i f hf
      obtain rfl := (Prod.mk.inj h).1
      exact hmake hf
    · split at h
      · cases h
      · split at h
        · rename_i g hg
          obtain rfl := (Prod.mk.inj h).1
          exact hmake hg
        · exact hthere h
    · exact hthere h

theorem reaches_nil (h : d.root.sight d.here = some (.dir [])) : d.Reaches ⟨[]⟩ d.here :=
  ⟨Node.resolve_of_target (Node.follow_idle (fun _ h => List.mem_singleton.mp h) h) _, h⟩

theorem makeDirs_eq (d : Disk) (p : Path) : d.makeDirs p = d.makeDirsAlong
    (p :: (match p.parent? with | some q => q.ancestors p.text.length | none => [])) := rfl

/-- Afterwards the path leads to a directory. -/
theorem makeDirs_ok (hhere : d.root.sight d.here = some (.dir []))
    (h : d.makeDirs p = (e, .ok ())) : ∃ b, e.Reaches p b := by
  have hwide := d.makeDirs_widens p
  rw [h] at hwide
  rw [makeDirs_eq] at h
  rcases makeDirsAlong_ok h with hp | hp
  · obtain ⟨t⟩ := p
    obtain rfl : t = [] := hp
    refine ⟨_, reaches_nil ?_⟩
    rw [hwide.grows.here]
    exact hwide.grows.root.dir _ _ hhere
  · exact (isDir_iff.mp hp).2

theorem writeBytes_extends {content : ByteArray} (h : d.writeBytes p content = .ok e) : d.Extends e := by
  rw [writeBytes] at h
  split at h
  · cases h
  · split at h
    · rename_i x hx
      split at h
      · rename_i hfile
        obtain rfl := Except.ok.inj h
        cases hnode : d.root.get? x with
        | none => simp [hnode] at hfile
        | some node =>
          cases node with
          | file c => exact ⟨rfl, Node.extends_put_of_file (Node.sight_eq_file.mpr hnode) content⟩
          | dir es => simp [hnode, Node.isFile] at hfile
          | link path => simp [hnode, Node.isFile] at hfile
      · cases h
    · rename_i x hx
      obtain rfl := Except.ok.inj h
      rw [resolve, resolveFrom] at hx
      split at hx
      · cases hx
      · obtain ⟨z, n, rfl, hz, hfree⟩ := Node.of_resolve_free hx
        exact ⟨rfl, Node.extends_put_of_free hz hfree rfl⟩
    · cases h

theorem write_error {t : Text} {err : Failure} (h : (d.write p t).2 = .error err) :
    (d.write p t).1 = d := by
  rw [write] at h ⊢
  split at h
  · cases h
  · rfl

theorem write_extends (d : Disk) (p : Path) (t : Text) : d.Extends (d.write p t).1 := by
  rw [write]
  split
  · rename_i e he
    exact writeBytes_extends he
  · exact .refl d

theorem ensureDir_extends (d : Disk) (p : Path) : d.Extends (d.ensureDir p).1 := by
  have hgrows := (d.makeDirs_widens p).grows
  rw [ensureDir]
  split
  · exact .refl d
  · split <;> rename_i he <;> rwa [he] at hgrows

theorem writeWithParents_extends (d : Disk) (p : Path) (t : Text) :
    d.Extends (d.writeWithParents p t).1 := by
  rw [writeWithParents]
  split
  · rename_i c cs _
    have hgrows := d.ensureDir_extends ⟨c :: cs⟩
    split
    · rename_i e he
      rw [he] at hgrows
      exact hgrows.trans (e.write_extends p t)
    · rename_i he
      rwa [he] at hgrows
  · exact d.write_extends p t

end Disk

end CleanCopy
