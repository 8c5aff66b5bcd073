import CleanCopy.Proofs.Files.Follow
import CleanCopy.Proofs.Files.Steps

namespace CleanCopy

open CleanCopy.Path

namespace Node

variable {root : Node} {x y : Place} {n : Text} {steps rest : List Component} {links : Nat}
  {t : Target} {e : FileError}

theorem sight_eq_dir : root.sight x = some (.dir []) ↔ ∃ es, root.get? x = some (.dir es) := by
  rw [sight]
  cases root.get? x with
  | none => simp
  | some node => cases node <;> simp [emptied]

theorem sight_eq_file {c : ByteArray} : root.sight x = some (.file c) ↔ root.get? x = some (.file c) := by
  rw [sight]
  cases root.get? x with
  | none => simp
  | some node => cases node <;> simp [emptied]

theorem sight_eq_none : root.sight x = none ↔ root.get? x = none := Option.map_eq_none_iff

/-- What comes of a step is a matter of what stands at the places it is taken from and to. -/
theorem follow_cons (root : Node) (x : Place) (step : Component) (rest : List Component) :
    root.follow x (step :: rest) =
      match root.sight x, step with
      | some (.dir _), .root => root.follow [] rest
      | some (.dir _), .here => root.follow x rest
      | some (.dir _), .up => root.follow x.dropLast rest
      | some (.dir _), .name n =>
        match root.sight (x ++ [n]) with
        | some (.link path) => .link x path rest
        | some _ => root.follow (x ++ [n]) rest
        | none => if rest.isEmpty then .target (.free (x ++ [n])) else .failed .missing
      | _, _ => .failed .notDirectory := by
  rw [follow, sight]
  cases hx : root.get? x with
  | none => rfl
  | some node =>
    cases node with
    | file c => rfl
    | link t => rfl
    | dir es =>
      cases step with
      | root | here | up => rfl
      | name n =>
        have hn : root.sight (x ++ [n]) = (es.lookup n).map emptied := by
          rw [sight, get?_concat, hx]
          rfl
        simp only [Option.map_some, emptied, hn]
        cases es.lookup n with
        | none => rfl
        | some child => cases child <;> rfl

theorem follow_append_of_link {dir : Place} {path : Text} (h : root.follow x steps = .link dir path rest)
    (more : List Component) : root.follow x (steps ++ more) = .link dir path (rest ++ more) := by
  fun_induction follow root x steps <;> simp_all [follow]

theorem follow_append_of_failed (h : root.follow x steps = .failed e) (more : List Component) :
    root.follow x (steps ++ more) = .failed e := by
  fun_induction follow root x steps <;> simp_all [follow, -List.lookup_eq_none_iff]

theorem follow_append_of_free (h : root.follow x steps = .target (.free y)) {more : List Component}
    (hne : more ≠ []) : root.follow x (steps ++ more) = .failed .missing := by
  fun_induction follow root x steps <;> simp_all [follow, -List.lookup_eq_none_iff]

theorem sight_dir {es : List (Text × Node)} (h : root.sight x = some (.dir es)) : es = [] := by
  obtain ⟨node, -, hes⟩ := Option.map_eq_some_iff.mp h
  cases node with
  | dir es' => exact (Node.dir.inj hes).symm
  | file c => cases hes
  | link path => cases hes

/-- A name that ends at a free place ends in a directory. -/
theorem of_follow_free (h : root.follow x steps = .target (.free y)) :
    ∃ z n, y = z ++ [n] ∧ root.sight z = some (.dir []) ∧ root.sight y = none := by
  induction steps generalizing x with
  | nil => cases h
  | cons step rest ih =>
    rw [follow_cons] at h
    split at h
    · exact ih h
    · exact ih h
    · exact ih h
    · rename_i es n hx
      split at h
      · cases h
      · exact ih h
      · rename_i hn
        split at h
        · cases h
          obtain rfl := sight_dir hx
          exact ⟨x, n, rfl, hx, hn⟩
        · cases h
    · cases h

theorem sight_of_follow_cons (step : Component) (rest : List Component)
    (h : root.follow x (step :: rest) ≠ .failed .notDirectory) : root.sight x = some (.dir []) := by
  rw [follow_cons] at h
  rw [sight] at h ⊢
  cases hx : root.get? x with
  | none => simp [hx] at h
  | some node =>
    cases node with
    | dir es => rfl
    | file c => simp [hx, emptied] at h
    | link path => simp [hx, emptied] at h

theorem sight_of_append {node : Node} {ns : Place} (h : root.sight (x ++ ns) = some node)
    (hne : ns ≠ []) : root.sight x = some (.dir []) := by
  obtain ⟨child, hget, -⟩ := Option.map_eq_some_iff.mp h
  rw [get?_append] at hget
  obtain ⟨above, ha, hbelow⟩ := Option.bind_eq_some_iff.mp hget
  obtain ⟨m, ms, rfl⟩ := List.exists_cons_of_ne_nil hne
  obtain ⟨es, -, rfl, -, -⟩ := exists_entry hbelow
  exact sight_eq_dir.mpr ⟨es, ha⟩

/-- No link is in the way of the names that lead to a file. -/
theorem follow_of_sight_file {ns : Place} {c : ByteArray}
    (h : root.sight (x ++ ns) = some (.file c)) :
    root.follow x (ns.map .name) = .target (.node (x ++ ns)) := by
  induction ns generalizing x with
  | nil => rw [List.append_nil]; rfl
  | cons n ns ih =>
    have hx := sight_of_append h (List.cons_ne_nil n ns)
    rw [List.append_cons] at h ⊢
    rw [List.map_cons, follow_cons, hx]
    by_cases hns : ns = []
    · subst hns
      rw [List.append_nil] at h
      simp only [h]
      exact ih (by rwa [List.append_nil])
    · simp only [sight_of_append h hns]
      exact ih h

theorem resolve_of_link {dir : Place} {path : Text} (h : root.follow x steps = .link dir path rest)
    (hne : path ≠ []) (links : Nat) :
    root.resolve (links + 1) x steps = root.resolve links dir (Path.steps ⟨path⟩ ++ rest) := by
  obtain ⟨c, path, rfl⟩ := List.exists_cons_of_ne_nil hne
  rw [resolve.eq_def, h]

/-- Steps after those that lead to a node go on from there, with the links that are left. -/
theorem exists_resolve_append (h : root.resolve links x steps = .ok (.node y))
    (rest : List Component) :
    ∃ k, root.resolve links x (steps ++ rest) = root.resolve k y rest := by
  fun_induction resolve root links x steps with
  | case1 links x steps t' hf =>
    obtain rfl := Except.ok.inj h
    refine ⟨links, ?_⟩
    rw [resolve.eq_def, follow_append_of_node hf rest, ← resolve.eq_def]
  | case2 | case3 | case4 => cases h
  | case5 x steps dir path more links hne hf ih =>
    rw [resolve_of_link (follow_append_of_link hf rest) hne, ← List.append_assoc]
    exact ih h

theorem resolve_append (h : root.resolve links x steps = .ok (.node y))
    (hrest : root.follow y rest = .target t) : root.resolve links x (steps ++ rest) = .ok t := by
  obtain ⟨k, hk⟩ := exists_resolve_append h rest
  exact hk.trans (resolve_of_target hrest k)

/-- The first steps of those that lead somewhere lead to a node, and the others go on from there. -/
theorem exists_resolve_of_append (h : root.resolve links x (steps ++ rest) = .ok t) (hne : rest ≠ []) :
    ∃ y k, root.resolve links x steps = .ok (.node y) ∧ root.resolve k y rest = .ok t := by
  have hfailed {links : Nat} {x : Place} {steps : List Component} {e : FileError}
      (hf : root.follow x (steps ++ rest) = .failed e)
      (h : root.resolve links x (steps ++ rest) = .ok t) : False := by
    cases (resolve_of_failed hf links).symm.trans h
  fun_induction resolve root links x steps with
  | case1 links x steps t' hf =>
    cases t' with
    | node y =>
      refine ⟨y, links, rfl, ?_⟩
      rw [resolve.eq_def] at h ⊢
      rwa [follow_append_of_node hf rest] at h
    | free y => exact (hfailed (follow_append_of_free hf hne) h).elim
  | case2 links x steps e hf => exact (hfailed (follow_append_of_failed hf rest) h).elim
  | case3 links x steps dir more hf =>
    rw [resolve.eq_def, follow_append_of_link hf rest] at h
    cases h
  | case4 x steps dir c path more hf =>
    rw [resolve.eq_def, follow_append_of_link hf rest] at h
    cases h
  | case5 x steps dir path more links hpath hf ih =>
    rw [resolve_of_link (follow_append_of_link hf rest) hpath, ← List.append_assoc] at h
    exact ih h

/-- A path that ends at a free place ends in a directory. -/
theorem of_resolve_free (h : root.resolve links x steps = .ok (.free y)) :
    ∃ z n, y = z ++ [n] ∧ root.sight z = some (.dir []) ∧ root.sight y = none := by
  fun_induction resolve root links x steps with
  | case1 links x steps t hf =>
    obtain rfl := Except.ok.inj h
    exact of_follow_free hf
  | case2 | case3 | case4 => cases h
  | case5 x steps dir path more links hpath hf ih => exact ih h

section idle
variable {b : Place} {hs : List Component} (hh : ∀ h ∈ hs, h = .here)
include hh

theorem follow_idle (hb : root.sight b = some (.dir [])) : root.follow b hs = .target (.node b) := by
  induction hs with
  | nil => rfl
  | cons h hs ih =>
    obtain ⟨rfl, hhs⟩ := List.forall_mem_cons.mp hh
    rw [follow_cons, hb]
    exact ih hhs

theorem resolve_append_idle (hb : root.sight b = some (.dir [])) :
    root.resolve links x (steps ++ hs) = .ok (.node b) ↔ root.resolve links x steps = .ok (.node b) := by
  refine ⟨fun h => ?_, fun h => resolve_append h (follow_idle hh hb)⟩
  by_cases hnil : hs = []
  · rwa [hnil, List.append_nil] at h
  · obtain ⟨y, k, hy, h⟩ := exists_resolve_of_append h hnil
    obtain ⟨step, hs, rfl⟩ := List.exists_cons_of_ne_nil hnil
    -- The first idle step is taken from a directory, which the others do not leave.
    have hdir : root.sight y = some (.dir []) := by
      refine sight_of_follow_cons step hs fun hf => ?_
      cases (resolve_of_failed hf k).symm.trans h
    cases (resolve_of_target (follow_idle hh hdir) k).symm.trans h
    exact hy

end idle

end Node

namespace Disk

variable {d : Disk} {p : Path} {b : Place} {ns : List Text} {s : Text}

/-- A path that leads to a directory, through links if need be. The empty one, which cannot be
opened, leads to where relative paths begin. -/
structure Reaches (d : Disk) (p : Path) (b : Place) : Prop where
  resolve : d.root.resolve maxLinks d.here p.steps = .ok (.node b)
  dir : d.root.sight b = some (.dir [])

theorem nodeFrom_eq_ok {dir : Place} {node : Node} : d.nodeFrom dir p = .ok node ↔ p.text ≠ [] ∧
    ∃ y, d.root.resolve maxLinks dir p.steps = .ok (.node y) ∧ d.root.get? y = some node := by
  rw [nodeFrom, resolveFrom]
  by_cases hp : p.text = []
  · rw [if_pos (List.isEmpty_iff.mpr hp)]
    exact ⟨fun h => (by cases h), fun h => absurd hp h.1⟩
  · rw [if_neg (by simpa using hp)]
    constructor
    · intro h
      split at h
      · rename_i y hy
        split at h
        · rename_i m hm
          exact ⟨hp, y, hy, hm.trans (congrArg some (Except.ok.inj h))⟩
        · cases h
      · cases h
      · cases h
    · rintro ⟨-, y, hy, hnode⟩
      simp only [hy, hnode]

theorem isDir_iff : d.isDir p = true ↔ p.text ≠ [] ∧ ∃ b, d.Reaches p b := by
  rw [isDir, node]
  constructor
  · intro h
    cases hn : d.nodeFrom d.here p with
    | error err => rw [hn] at h; cases h
    | ok m =>
      rw [hn] at h
      obtain ⟨hp, y, hy, hnode⟩ := nodeFrom_eq_ok.mp hn
      cases m with
      | dir es => exact ⟨hp, y, hy, Node.sight_eq_dir.mpr ⟨es, hnode⟩⟩
      | file c => cases h
      | link t => cases h
  · rintro ⟨hp, b, hb⟩
    obtain ⟨es, hes⟩ := Node.sight_eq_dir.mp hb.dir
    rw [nodeFrom_eq_ok.mpr ⟨hp, b, hb.resolve, hes⟩]
    rfl

/-- A path is read from a directory. -/
theorem Reaches.here (h : d.Reaches p b) : d.root.sight d.here = some (.dir []) := by
  obtain ⟨step, rest, hsteps⟩ := List.exists_cons_of_ne_nil p.steps_ne_nil
  refine Node.sight_of_follow_cons step rest fun hf => ?_
  have hr := h.resolve
  rw [hsteps] at hr
  cases (Node.resolve_of_failed hf maxLinks).symm.trans hr

theorem Reaches.holds (h : d.Reaches p b) (hp : p.text ≠ []) : d.holds p = true := by
  obtain ⟨es, hes⟩ := Node.sight_eq_dir.mp h.dir
  rw [Disk.holds, node, nodeFrom_eq_ok.mpr ⟨hp, b, h.resolve, hes⟩]
  rfl

theorem Reaches.approach (h : d.Reaches p b) :
    d.root.resolve maxLinks d.here p.approach = .ok (.node b) := by
  obtain ⟨hs, heq, hh⟩ := p.steps_eq_approach
  have := h.resolve
  rw [heq] at this
  exact (Node.resolve_append_idle hh h.dir).mp this

/-- The path without its idle end leads to the same directory. -/
theorem Reaches.dropIdle (h : d.Reaches p b) :
    d.Reaches (p.withSegments (Path.dropIdle p.trunk)) b := by
  refine ⟨?_, h.dir⟩
  obtain ⟨ts, htrunk, hts⟩ := dropIdle_append p.trunk
  have hidle (ss : List Text) (hss : ∀ t ∈ ss, Component.ofSegment? t = none) :
      ∀ c ∈ ss.map stepOf, c = .here := by
    intro c hc
    obtain ⟨t, ht, rfl⟩ := List.mem_map.mp hc
    rw [stepOf, hss t ht]
    rfl
  have hfront : d.root.resolve maxLinks d.here
      (p.lead.toList ++ (Path.dropIdle p.trunk).map stepOf) = .ok (.node b) := by
    have := h.approach
    rw [Path.approach, htrunk, List.map_append, ← List.append_assoc] at this
    exact (Node.resolve_append_idle (hidle ts hts) h.dir).mp this
  by_cases hnil : Path.dropIdle p.trunk = []
  · rw [hnil, List.map_nil, List.append_nil] at hfront
    rw [hnil]
    -- A lead by itself is read with one idle stretch behind it.
    obtain ⟨hs, hsteps, hh⟩ : ∃ hs, (p.withSegments []).steps = p.lead.toList ++ hs ∧
        ∀ h ∈ hs, h = .here := by
      have hlead : p.lead = none ∨ p.lead = some .root ∨ p.lead = some .here := by
        rw [lead, splitLead.eq_def]
        split <;> simp
      refine ⟨[.here], ?_, fun _ h => List.mem_singleton.mp h⟩
      rcases hlead with hl | hl | hl <;> rw [withSegments, hl] <;> rfl
    rw [hsteps]
    exact (Node.resolve_append_idle hh h.dir).mpr hfront
  · obtain ⟨ss, hss⟩ : ∃ ss, p.segments = Path.dropIdle p.trunk ++ ss := by
      rcases p.segments_eq_trunk with hseg | hseg
      · exact ⟨ts, hseg.trans htrunk⟩
      · exact ⟨ts ++ [[]], by rw [hseg, ← List.append_assoc, ← htrunk]⟩
    obtain ⟨hlead, hsegs⟩ := withSegments_spelling hss hnil
    rw [steps_of_segments (hsegs.trans (List.append_nil _).symm), hlead, List.map_nil,
      List.append_nil]
    exact hfront

theorem Reaches.join_here (h : d.Reaches p b) (hs : s = [] ∨ s = ['.']) :
    d.Reaches (p.join ⟨s⟩) b := by
  refine ⟨?_, h.dir⟩
  have hslash : '/' ∉ s := by rcases hs with rfl | rfl <;> decide
  by_cases hp : p.text = [] ∧ s = ['.']
  -- The empty path and a point make a lead, and no stretch behind one.
  · obtain ⟨t⟩ := p
    obtain ⟨rfl, rfl⟩ : t = [] ∧ s = ['.'] := hp
    have hidle : ∀ c ∈ [Component.here], c = .here := fun _ h => List.mem_singleton.mp h
    exact (Node.resolve_append_idle hidle h.dir).mpr h.resolve
  · have hspell : p.text ≠ [] ∨ s ≠ ['.'] := by
      by_cases ht : p.text = []
      · exact .inr fun hs => hp ⟨ht, hs⟩
      · exact .inl ht
    obtain ⟨hlead, hsegs⟩ := join_spelling hslash hspell
    rw [steps_of_segments hsegs, hlead]
    refine (Node.resolve_append_idle (fun c hc => ?_) h.dir).mpr h.approach
    rcases hs with rfl | rfl <;> exact List.mem_singleton.mp hc

theorem Reaches.join_up (h : d.Reaches p b) : d.Reaches (p.join ⟨['.', '.']⟩) b.dropLast := by
  obtain ⟨hlead, hsegs⟩ := join_spelling (p := p) (n := ['.', '.']) (by decide) (.inr (by decide))
  constructor
  · rw [steps_of_segments hsegs, hlead]
    refine Node.resolve_append h.approach ?_
    rw [List.map_singleton, Node.follow_cons, h.dir]
    rfl
  · obtain ⟨es, hes⟩ := Node.sight_eq_dir.mp h.dir
    rcases List.eq_nil_or_concat' b with rfl | ⟨y, n, rfl⟩
    · exact h.dir
    · rw [List.dropLast_concat]
      rw [Node.get?_concat] at hes
      obtain ⟨node, hnode, hl⟩ := Option.bind_eq_some_iff.mp hes
      cases node with
      | dir es' => exact Node.sight_eq_dir.mpr ⟨es', hnode⟩
      | file c => cases hl
      | link t => cases hl

/-- A stretch that is no name keeps a path in a directory. -/
theorem Reaches.join_of_not_name (h : d.Reaches p b) (hslash : '/' ∉ s) (hs : ¬ s.IsName) :
    ∃ b', d.Reaches (p.join ⟨s⟩) b' := by
  rcases Text.eq_of_not_isName hslash hs with hs | hs | rfl
  · exact ⟨b, h.join_here (.inl hs)⟩
  · exact ⟨b, h.join_here (.inr hs)⟩
  · exact ⟨_, h.join_up⟩

end Disk

end CleanCopy
