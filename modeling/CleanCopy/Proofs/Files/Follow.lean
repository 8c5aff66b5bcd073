import CleanCopy.Files.Disk
import CleanCopy.Proofs.Files.Tree
import CleanCopy.Proofs.Text.Join

namespace CleanCopy.Node

open Component

variable {root big : Node} {x y : Place} {n : Text} {steps rest : List Component} {e : FileError}

theorem follow_of_not_dir (h : root.look x ≠ some none) (step : Component)
    (rest : List Component) : root.follow x (step :: rest) = .failed .notDirectory := by
  rw [follow]
  cases hx : root.get? x with
  | none => rfl
  | some node =>
    cases node with
    | file c => rfl
    | link t => rfl
    | dir es => exact absurd (by rw [look, hx]; rfl) h

section dir
variable (hx : root.look x = some none) (ht : root.Tidy)
include hx ht

theorem follow_here (rest : List Component) : root.follow x (.here :: rest) = root.follow x rest := by
  obtain ⟨es, he⟩ := ht.look_eq_dir.mp hx
  rw [follow, he]

theorem follow_up (rest : List Component) :
    root.follow x (.up :: rest) = root.follow x.dropLast rest := by
  obtain ⟨es, he⟩ := ht.look_eq_dir.mp hx
  rw [follow, he]

theorem follow_root (rest : List Component) : root.follow x (.root :: rest) = root.follow [] rest := by
  obtain ⟨es, he⟩ := ht.look_eq_dir.mp hx
  rw [follow, he]

theorem follow_name_of_look {v : Option ByteArray} (h : root.look (x ++ [n]) = some v)
    (rest : List Component) : root.follow x (.name n :: rest) = root.follow (x ++ [n]) rest := by
  obtain ⟨es, he⟩ := ht.look_eq_dir.mp hx
  obtain ⟨node, hn, -⟩ := Option.map_eq_some_iff.mp h
  have hl : es.lookup n = some node := by
    rw [get?_concat, he] at hn
    exact hn
  have htidy := (ht.get? hn).1
  rw [follow, he]
  cases node with
  | link t => exact absurd htidy id
  | file c => simp only [hl]
  | dir es => simp only [hl]

theorem follow_name_of_free (h : root.look (x ++ [n]) = none) (rest : List Component) :
    root.follow x (.name n :: rest) =
      if rest.isEmpty then .target (.free (x ++ [n])) else .failed .missing := by
  obtain ⟨es, he⟩ := ht.look_eq_dir.mp hx
  have hl : es.lookup n = none := by
    rw [look_eq_none, get?_concat, he] at h
    exact h
  rw [follow, he]
  simp only [hl]

end dir

theorem follow_append_of_node (h : root.follow x steps = .target (.node y))
    (rest : List Component) : root.follow x (steps ++ rest) = root.follow y rest := by
  fun_induction follow root x steps <;> simp_all [follow]

theorem exists_follow_of_append {t : Target} (h : root.follow x (steps ++ rest) = .target t)
    (hr : rest ≠ []) : ∃ y, root.follow x steps = .target (.node y) := by
  fun_induction follow root x steps <;> simp_all [follow, -List.lookup_eq_none_iff]

/-- A step leaves a node only when the node is a directory. -/
theorem look_of_follow {t : Target} {step : Component}
    (h : root.follow x (step :: rest) = .target t) : root.look x = some none := by
  by_contra hx
  rw [follow_of_not_dir hx] at h
  cases h

/-- What is found stays where it is while directories stay directories and files stay files. -/
theorem follow_mono (ht : root.Tidy) (hb : big.Tidy)
    (hdir : ∀ z, root.look z = some none → big.look z = some none)
    (hfile : ∀ z, root.look z ≠ none → big.look z ≠ none)
    (h : root.follow x steps = .target (.node y)) : big.follow x steps = .target (.node y) := by
  induction steps generalizing x with
  | nil => exact h
  | cons step rest ih =>
    -- A step is taken from a directory, which the other tree has too.
    have hx := look_of_follow h
    have hbx := hdir x hx
    cases step with
    | root =>
      rw [follow_root hx ht] at h
      rw [follow_root hbx hb]
      exact ih h
    | here =>
      rw [follow_here hx ht] at h
      rw [follow_here hbx hb]
      exact ih h
    | up =>
      rw [follow_up hx ht] at h
      rw [follow_up hbx hb]
      exact ih h
    | name n =>
      cases hn : root.look (x ++ [n]) with
      | none =>
        rw [follow_name_of_free hx ht hn] at h
        split at h <;> cases h
      | some v =>
        rw [follow_name_of_look hx ht hn] at h
        obtain ⟨w, hw⟩ := Option.ne_none_iff_exists'.mp
          (hfile (x ++ [n]) (by rw [hn]; exact Option.some_ne_none v))
        rw [follow_name_of_look hbx hb hw]
        exact ih h

/-- No file stands where some names lead through or end. -/
def Open (root : Node) (x : Place) (ns : List Text) : Prop :=
  ∀ ms ks, ns = ms ++ ks → ∀ c, root.look (x ++ ms) ≠ some (some c)

theorem Open.of_append {ns ms : List Text} (h : root.Open x (ns ++ ms)) : root.Open x ns :=
  fun ls ks hl => h ls (ks ++ ms) (by rw [hl, List.append_assoc])

section names
variable {ns : List Text} (ht : root.Tidy)
include ht

theorem follow_names_of_look {v : Option ByteArray} (h : root.look (x ++ ns) = some v)
    (rest : List Component) :
    root.follow x (ns.map .name ++ rest) = root.follow (x ++ ns) rest := by
  induction ns generalizing x with
  | nil => rw [List.append_nil, List.map_nil, List.nil_append]
  | cons n ns ih =>
    have hx : root.look x = some none := look_of_append h (List.cons_ne_nil n ns)
    rw [List.append_cons] at h
    obtain ⟨w, hw⟩ : ∃ w, root.look (x ++ [n]) = some w := by
      cases ns with
      | nil => exact ⟨v, by rwa [List.append_nil] at h⟩
      | cons m ms => exact ⟨none, look_of_append h (List.cons_ne_nil m ms)⟩
    rw [List.map_cons, List.cons_append, follow_name_of_look hx ht hw, ih h,
      ← List.append_cons]

theorem follow_names {v : Option ByteArray} (h : root.look (x ++ ns) = some v) :
    root.follow x (ns.map .name) = .target (.node (x ++ ns)) := by
  have := follow_names_of_look ht h []
  rwa [List.append_nil] at this

/-- Names that lead to a node lead to the place that they spell. -/
theorem look_of_follow_names (hne : ns ≠ []) (h : root.follow x (ns.map .name) = .target (.node y)) :
    y = x ++ ns ∧ root.look y ≠ none := by
  induction ns generalizing x with
  | nil => exact absurd rfl hne
  | cons n ns ih =>
    have hx := look_of_follow h
    rw [List.map_cons] at h
    cases hn : root.look (x ++ [n]) with
    | none =>
      rw [follow_name_of_free hx ht hn] at h
      split at h <;> cases h
    | some v =>
      rw [follow_name_of_look hx ht hn] at h
      cases ns with
      | nil =>
        obtain rfl : x ++ [n] = y := by simpa [follow] using h
        exact ⟨rfl, by rw [hn]; exact Option.some_ne_none v⟩
      | cons m ms =>
        have := ih (List.cons_ne_nil m ms) h
        rwa [List.append_assoc] at this

/-- A file is no directory to look for anything in. -/
theorem follow_names_of_file {c : ByteArray} (h : root.look (x ++ ns) = some (some c))
    (hr : rest ≠ []) : root.follow x (ns.map .name ++ rest) = .failed .notDirectory := by
  obtain ⟨step, rest, rfl⟩ := List.exists_cons_of_ne_nil hr
  rw [follow_names_of_look ht h, follow_of_not_dir]
  rw [h]
  exact fun hc => absurd (Option.some.inj hc) (Option.some_ne_none c)

/-- Names that no file stands in the way of end at a free one or at nothing. -/
theorem follow_names_of_none (hx : root.look x = some none) (h : root.look (x ++ ns) = none)
    (hno : root.Open x ns) :
    root.follow x (ns.map .name) = .target (.free (x ++ ns)) ∨
      root.follow x (ns.map .name) = .failed .missing := by
  induction ns generalizing x with
  | nil =>
    rw [List.append_nil, hx] at h
    cases h
  | cons n ns ih =>
    rw [List.append_cons] at h ⊢
    rw [List.map_cons]
    match hn : root.look (x ++ [n]) with
    | none =>
      rw [follow_name_of_free hx ht hn]
      cases ns with
      | nil => exact .inl (by rw [List.append_nil]; rfl)
      | cons m ms => exact .inr rfl
    | some none =>
      rw [follow_name_of_look hx ht hn]
      refine ih hn h fun ms ks hms c hc => ?_
      rw [List.append_assoc] at hc
      exact hno (n :: ms) ks (by rw [hms]; rfl) c hc
    | some (some c) => exact absurd hn (hno [n] ns rfl c)

end names

theorem resolve_of_target {t : Target} (h : root.follow x steps = .target t) (links : Nat) :
    root.resolve links x steps = .ok t := by
  unfold resolve
  rw [h]

theorem resolve_of_failed (h : root.follow x steps = .failed e) (links : Nat) :
    root.resolve links x steps = .error e := by
  unfold resolve
  rw [h]

theorem follow_ne_link (ht : root.Tidy) {dir : Place} {path : Text} :
    root.follow x steps ≠ .link dir path rest := by
  induction steps generalizing x with
  | nil => exact fun h => by cases h
  | cons step steps ih =>
    by_cases hx : root.look x = some none
    · cases step with
      | root => rw [follow_root hx ht]; exact ih
      | here => rw [follow_here hx ht]; exact ih
      | up => rw [follow_up hx ht]; exact ih
      | name n =>
        cases hn : root.look (x ++ [n]) with
        | none =>
          rw [follow_name_of_free hx ht hn]
          split <;> exact fun h => by cases h
        | some v => rw [follow_name_of_look hx ht hn]; exact ih
    · rw [follow_of_not_dir hx]
      exact fun h => by cases h

theorem follow_of_resolve (ht : root.Tidy) {t : Target} {links : Nat}
    (h : root.resolve links x steps = .ok t) : root.follow x steps = .target t := by
  cases hf : root.follow x steps with
  | target u => rw [← Except.ok.inj ((resolve_of_target hf links).symm.trans h)]
  | failed e => cases (resolve_of_failed hf links).symm.trans h
  | link dir path rest => exact absurd hf (follow_ne_link ht)

end CleanCopy.Node
