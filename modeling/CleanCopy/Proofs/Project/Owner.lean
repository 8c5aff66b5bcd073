import CleanCopy.Project.Basic
import CleanCopy.Proofs.Text.Parent
import Mathlib.Data.List.Pairwise

namespace CleanCopy

/-- The directory of a path lies around a file, at a depth of `n` components. -/
def Path.Encloses (p file : Path) (n : Nat) : Prop :=
  ∃ dir, p.parent? = some dir ∧ dir.components <+: file.components ∧ dir.components.length = n

namespace Path

variable {p q file : Path} {m n : Nat}

theorem isWithin_iff {dir : Path} :
    file.isWithin dir = true ↔ dir.components <+: file.components := by
  have hafter (ds cs : List Component) : (below?.after ds cs).isSome = true ↔ ds <+: cs := by
    induction ds generalizing cs with
    | nil => simp [below?.after]
    | cons d ds ih =>
      cases cs with
      | nil => simp [below?.after]
      | cons c cs =>
        rw [below?.after, List.cons_prefix_cons, ← ih]
        split <;> simp_all
  exact hafter _ _

theorem Encloses.depth_eq {dir : Path} (h : p.Encloses file n) (hdir : p.parent? = some dir) :
    n = dir.components.length := by
  obtain ⟨dir', hdir', -, rfl⟩ := h
  rw [Option.some.inj (hdir.symm.trans hdir')]

theorem Encloses.unique (hm : p.Encloses file m) (hn : p.Encloses file n) : m = n := by
  obtain ⟨dir, hdir, -, rfl⟩ := hm
  exact (hn.depth_eq hdir).symm

/-- Spelling does not matter. -/
theorem Encloses.congr (h : p.components = q.components) (hp : p.Encloses file n) :
    q.Encloses file n := by
  obtain ⟨dir, hdir, hprefix, rfl⟩ := hp
  have hsome : q.parent? ≠ none := by
    rw [Ne, parent?_eq_none_iff, ← h, ← parent?_eq_none_iff, hdir]
    exact Option.some_ne_none _
  obtain ⟨dir', hdir'⟩ := Option.ne_none_iff_exists'.mp hsome
  have hcomp : dir'.components = dir.components := by
    rw [components_parent? hdir', components_parent? hdir, h]
  exact ⟨dir', hdir', hcomp ▸ hprefix, by rw [hcomp]⟩

end Path

namespace Projects

/-- Of two descriptors around a file the first one lies deeper, or is of a kind that goes first, or
is the first in the order of paths. -/
def Outranks (p : Path) (m : Nat) (q : Path) (n : Nat) : Prop :=
  n < m ∨ m = n ∧ (rank p < rank q ∨ rank p = rank q ∧ p.compare q = .lt)

/-- The projects after some have been added in order. -/
def ofInserts (es : List (Path × Text)) : Projects := es.foldl (fun ps e => ps.insert e.1 e.2) {}

/-- The last name that was given to a path, in one spelling or another. -/
def LastNamed (es : List (Path × Text)) (p : Path) (name : Text) : Prop :=
  ∃ earlier q later, es = earlier ++ (q, name) :: later ∧ q.components = p.components ∧
    ∀ e ∈ later, e.1.components ≠ p.components

variable {p q r file : Path} {l m n : Nat} {name old : Text} {e : Path × Text}
  {es es' : List (Path × Text)} {ps : Projects}

theorem precedes_iff : precedes (p, m) (q, n) = true ↔ Outranks p m q n := by
  rw [precedes, beq_iff_eq, Ordering.then_eq_lt, Ordering.then_eq_lt, Nat.compare_eq_lt,
    Nat.compare_eq_eq, Nat.compare_eq_lt, Nat.compare_eq_eq, Outranks, eq_comm (a := n)]

theorem rank_congr (h : p.components = q.components) : rank p = rank q := by
  rw [rank, rank, DescriptorKind.ofPath?, DescriptorKind.ofPath?, Path.fileName?, Path.fileName?, h]

theorem Outranks.trans (h : Outranks p l q m) (h' : Outranks q m r n) : Outranks p l r n := by
  rcases h with h | ⟨rfl, h | ⟨hrank, h⟩⟩ <;> rcases h' with h' | ⟨rfl, h' | ⟨hrank', h'⟩⟩
  · exact .inl (by omega)
  · exact .inl h
  · exact .inl h
  · exact .inl h'
  · exact .inr ⟨rfl, .inl (by omega)⟩
  · exact .inr ⟨rfl, .inl (by omega)⟩
  · exact .inl h'
  · exact .inr ⟨rfl, .inl (by omega)⟩
  · exact .inr ⟨rfl, .inr ⟨hrank.trans hrank', Path.compare_trans h h'⟩⟩

theorem Outranks.congr (hqr : q.components = r.components) (h : Outranks p m q n) :
    Outranks p m r n := by
  rwa [Outranks, ← rank_congr hqr, Path.compare, ← hqr]

theorem Outranks.irrefl : ¬ Outranks p m p m := by
  rintro (h | ⟨-, h | ⟨-, h⟩⟩)
  · exact absurd h (Nat.lt_irrefl _)
  · exact absurd h (Nat.lt_irrefl _)
  · rw [Path.compare_eq_iff.mpr rfl] at h
    cases h

theorem Outranks.total (h : p.components ≠ q.components) : Outranks p m q n ∨ Outranks q n p m := by
  rcases Nat.lt_trichotomy m n with hmn | rfl | hmn
  · exact .inr (.inl hmn)
  · rcases Nat.lt_trichotomy (rank p) (rank q) with hrank | hrank | hrank
    · exact .inl (.inr ⟨rfl, .inl hrank⟩)
    · cases hc : p.compare q with
      | lt => exact .inl (.inr ⟨rfl, .inr ⟨hrank, hc⟩⟩)
      | eq => exact absurd (Path.compare_eq_iff.mp hc) h
      | gt => exact .inr (.inr ⟨rfl, .inr ⟨hrank.symm, Path.compare_gt_iff.mp hc⟩⟩)
    · exact .inr (.inr ⟨rfl, .inl hrank⟩)
  · exact .inl (.inl hmn)

/-- Descriptors stand in the order of paths, no path twice. -/
def InOrder (es : List (Path × Text)) : Prop := es.Pairwise fun a b => a.1.compare b.1 = .lt

/-- Two descriptors do not have the same path. -/
def Apart (a b : Path × Text) : Prop := a.1.components ≠ b.1.components

instance : Std.Symm Apart := ⟨fun _ _ h => h.symm⟩

instance : DecidableRel Apart := fun a b =>
  inferInstanceAs (Decidable (a.1.components ≠ b.1.components))

theorem InOrder.apart (h : InOrder es) : es.Pairwise Apart :=
  h.imp fun hlt heq => by
    rw [Path.compare_eq_iff.mpr heq] at hlt
    cases hlt

theorem eq_of_apart (h : es.Pairwise Apart) {e e' : Path × Text} (he : e ∈ es) (he' : e' ∈ es)
    (heq : e.1.components = e'.1.components) : e = e' := by
  by_contra hne
  exact h.forall he he' hne heq

theorem mem_insertInto_of_ne (h : e.1.components ≠ p.components) :
    e ∈ insertInto p name es ↔ e ∈ es := by
  have hp : e ≠ (p, name) := fun he => h (by rw [he])
  induction es with
  | nil => simp [insertInto, hp]
  | cons e' es ih =>
    obtain ⟨q, old⟩ := e'
    rw [insertInto]
    split
    · simp [hp]
    · rename_i hc
      have hq (t : Text) : e ≠ (q, t) := by
        rintro rfl
        exact h (Path.compare_eq_iff.mp hc).symm
      simp [hq]
    · simp [ih]

/-- A path stays as it was spelled first, with its new name. -/
theorem exists_mem_insertInto (p : Path) (name : Text) (es : List (Path × Text)) :
    ∃ q, (q, name) ∈ insertInto p name es ∧ q.components = p.components ∧
      (q = p ∨ ∃ old, (q, old) ∈ es) := by
  induction es with
  | nil => exact ⟨p, List.mem_singleton_self _, rfl, .inl rfl⟩
  | cons e es ih =>
    obtain ⟨q, old⟩ := e
    rw [insertInto]
    split
    · exact ⟨p, List.mem_cons_self, rfl, .inl rfl⟩
    · rename_i hc
      exact ⟨q, List.mem_cons_self, (Path.compare_eq_iff.mp hc).symm,
        .inr ⟨old, List.mem_cons_self⟩⟩
    · obtain ⟨r, hmem, hcomp, hr⟩ := ih
      refine ⟨r, List.mem_cons_of_mem _ hmem, hcomp, hr.imp_right ?_⟩
      exact fun ⟨old', hold⟩ => ⟨old', List.mem_cons_of_mem _ hold⟩

theorem InOrder.insertInto (h : InOrder es) (p : Path) (name : Text) :
    InOrder (insertInto p name es) := by
  induction es with
  | nil => exact List.pairwise_singleton ..
  | cons e es ih =>
    obtain ⟨q, old⟩ := e
    obtain ⟨hq, hes⟩ := List.pairwise_cons.mp h
    rw [Projects.insertInto]
    split
    · rename_i hc
      refine List.pairwise_cons.mpr ⟨?_, h⟩
      rintro e (_ | ⟨_, he⟩)
      · exact hc
      · exact Path.compare_trans hc (hq e he)
    · exact List.pairwise_cons.mpr ⟨hq, hes⟩
    · rename_i hc
      refine List.pairwise_cons.mpr ⟨fun e he => ?_, ih hes⟩
      by_cases hcomp : e.1.components = p.components
      · rw [Path.compare, hcomp]
        exact Path.compare_gt_iff.mp hc
      · exact hq e ((mem_insertInto_of_ne hcomp).mp he)

theorem insertInto_perm (h : ∀ e ∈ es, e.1.components ≠ p.components) :
    (insertInto p name es).Perm ((p, name) :: es) := by
  induction es with
  | nil => rfl
  | cons e es ih =>
    obtain ⟨q, old⟩ := e
    obtain ⟨hq, hes⟩ := List.forall_mem_cons.mp h
    rw [insertInto]
    split
    · rfl
    · rename_i hc
      exact absurd (Path.compare_eq_iff.mp hc).symm hq
    · exact ((ih hes).cons _).trans (.swap ..)

theorem ofInserts_concat (es : List (Path × Text)) (e : Path × Text) :
    ofInserts (es ++ [e]) = (ofInserts es).insert e.1 e.2 := List.foldl_concat ..

theorem ofInserts_inOrder (es : List (Path × Text)) : InOrder (ofInserts es).entries := by
  induction es using List.reverseRecOn with
  | nil => exact List.Pairwise.nil
  | append_singleton es e ih =>
    rw [ofInserts_concat]
    exact ih.insertInto _ _

/-- What was added is there, in one spelling or another. -/
theorem exists_mem_ofInserts (h : e ∈ es) :
    ∃ e' ∈ (ofInserts es).entries, e'.1.components = e.1.components := by
  induction es using List.reverseRecOn with
  | nil => cases h
  | append_singleton es last ih =>
    rw [ofInserts_concat]
    obtain ⟨q, hq, hcomp, -⟩ := exists_mem_insertInto last.1 last.2 (ofInserts es).entries
    by_cases hlast : e.1.components = last.1.components
    · exact ⟨_, hq, hcomp.trans hlast.symm⟩
    · have hne : e ≠ last := fun he => hlast (by rw [he])
      have hmem : e ∈ es := by simpa [hne] using h
      obtain ⟨e', he', hcomp'⟩ := ih hmem
      exact ⟨e', (mem_insertInto_of_ne (by rwa [hcomp'])).mpr he', hcomp'⟩

theorem of_mem_ofInserts (h : (p, name) ∈ (ofInserts es).entries) :
    p ∈ es.map Prod.fst ∧ LastNamed es p name := by
  induction es using List.reverseRecOn generalizing name with
  | nil => cases h
  | append_singleton es last ih =>
    rw [ofInserts_concat] at h
    rw [List.map_append, List.mem_append]
    by_cases hlast : p.components = last.1.components
    · obtain ⟨q, hq, hcomp, hspelled⟩ := exists_mem_insertInto last.1 last.2 (ofInserts es).entries
      have happart := ((ofInserts_inOrder es).insertInto last.1 last.2).apart
      obtain ⟨rfl, rfl⟩ := Prod.mk.inj (eq_of_apart happart h hq (hlast.trans hcomp.symm))
      refine ⟨?_, es, last.1, [], rfl, hlast.symm, fun _ he => absurd he List.not_mem_nil⟩
      rcases hspelled with rfl | ⟨old, hold⟩
      · exact .inr (List.mem_singleton_self _)
      · exact .inl (ih hold).1
    · obtain ⟨hmem, earlier, q, later, rfl, hcomp, hlater⟩ := ih ((mem_insertInto_of_ne hlast).mp h)
      refine ⟨.inl hmem, earlier, q, later ++ [last], by simp, hcomp, fun e he => ?_⟩
      rcases List.mem_append.mp he with he | he
      · exact hlater e he
      · rw [List.mem_singleton.mp he]
        exact Ne.symm hlast

theorem ofInserts_perm (h : es.Pairwise Apart) : (ofInserts es).entries.Perm es := by
  induction es using List.reverseRecOn with
  | nil => rfl
  | append_singleton es last ih =>
    obtain ⟨hes, -, hlast⟩ := List.pairwise_append.mp h
    have hperm := ih hes
    rw [ofInserts_concat]
    have hnew : ∀ e ∈ (ofInserts es).entries, e.1.components ≠ last.1.components :=
      fun e he => hlast e (hperm.mem_iff.mp he) last (List.mem_singleton_self _)
    exact (insertInto_perm hnew).trans ((hperm.cons _).trans (List.perm_append_singleton ..).symm)

/-- The order in which different paths are added does not matter. -/
theorem ofInserts_congr (h : es.Pairwise Apart) (hperm : es'.Perm es) :
    ofInserts es' = ofInserts es := by
  have h' : es'.Pairwise Apart := (hperm.pairwise_iff fun hab => hab.symm).mpr h
  have hentries : (ofInserts es').entries = (ofInserts es).entries := by
    refine List.Perm.eq_of_pairwise (fun a b _ _ hab hba => ?_) (ofInserts_inOrder es')
      (ofInserts_inOrder es) (((ofInserts_perm h').trans hperm).trans (ofInserts_perm h).symm)
    have hloop := Path.compare_trans hab hba
    rw [Path.compare_eq_iff.mpr rfl] at hloop
    cases hloop
  exact congrArg Projects.mk hentries

/-- Of the descriptors around a file, one goes before all others. -/
structure Owns (es : List (Path × Text)) (file p : Path) (n : Nat) (name : Text) : Prop where
  mem : (p, name) ∈ es
  encloses : p.Encloses file n
  outranks : ∀ e ∈ es, ∀ m, e.1.Encloses file m → e = (p, name) ∨ Outranks p n e.1 m

theorem Owns.unique (h : Owns es file p n name) (h' : Owns es file q m old) :
    (p, n, name) = (q, m, old) := by
  have heq : (p, name) = (q, old) := by
    rcases h.outranks _ h'.mem m h'.encloses with he | hrank
    · exact he.symm
    · rcases h'.outranks _ h.mem n h.encloses with he | hrank'
      · exact he
      · exact absurd (hrank.trans hrank') Outranks.irrefl
  obtain ⟨rfl, rfl⟩ := Prod.mk.inj heq
  rw [h.encloses.unique h'.encloses]

theorem depthOver?_eq_some_iff : depthOver? file p = some n ↔ p.Encloses file n := by
  rw [depthOver?]
  cases hparent : p.parent? with
  | none => simp [Path.Encloses, hparent]
  | some dir =>
    simp [Path.Encloses, hparent, Path.isWithin_iff]

theorem depthOver?_eq_none_iff : depthOver? file p = none ↔ ∀ n, ¬ p.Encloses file n := by
  simp only [← depthOver?_eq_some_iff, Option.eq_none_iff_forall_ne_some, Ne]

theorem ownerOf?_cases (h : es.Pairwise Apart) :
    ownerOf? file es = none ∧ (∀ e ∈ es, ∀ n, ¬ e.1.Encloses file n) ∨
      ∃ p n name, ownerOf? file es = some (p, n, name) ∧ Owns es file p n name := by
  induction es with
  | nil => exact .inl ⟨rfl, fun e he => absurd he List.not_mem_nil⟩
  | cons e es ih =>
    obtain ⟨q, old⟩ := e
    obtain ⟨hq, hes⟩ := List.pairwise_cons.mp h
    rw [ownerOf?]
    cases hdepth : depthOver? file q with
    | none =>
      have hout := depthOver?_eq_none_iff.mp hdepth
      rcases ih hes with ⟨hnone, hall⟩ | ⟨p, n, name, hsome, howns⟩
      · exact .inl ⟨hnone, List.forall_mem_cons.mpr ⟨hout, hall⟩⟩
      · refine .inr ⟨p, n, name, hsome, List.mem_cons_of_mem _ howns.mem, howns.encloses, ?_⟩
        exact List.forall_mem_cons.mpr ⟨fun m hm => absurd hm (hout m), howns.outranks⟩
    | some m =>
      have hin := depthOver?_eq_some_iff.mp hdepth
      rcases ih hes with ⟨hnone, hall⟩ | ⟨p, n, name, hsome, howns⟩
      · refine .inr ⟨q, m, old, by rw [hnone], List.mem_cons_self, hin, ?_⟩
        exact List.forall_mem_cons.mpr ⟨fun _ _ => .inl rfl,
          fun e he l hl => absurd hl (hall e he l)⟩
      · rw [hsome]
        by_cases hrank : Outranks p n q m
        · refine .inr ⟨p, n, name, if_pos (precedes_iff.mpr hrank),
            List.mem_cons_of_mem _ howns.mem, howns.encloses,
            List.forall_mem_cons.mpr ⟨fun l hl => .inr ?_, howns.outranks⟩⟩
          rwa [hl.unique hin]
        · have hrank' := (Outranks.total (hq _ howns.mem)).resolve_right hrank
          refine .inr ⟨q, m, old, if_neg (mt precedes_iff.mp hrank), List.mem_cons_self, hin,
            List.forall_mem_cons.mpr ⟨fun _ _ => .inl rfl, fun e he l hl => .inr ?_⟩⟩
          -- What the owner among the rest outranks, the head outranks all the more.
          rcases howns.outranks e he l hl with rfl | hlt
          · rwa [hl.unique howns.encloses]
          · exact hrank'.trans hlt

theorem owner?_cases (h : InOrder ps.entries) (file : Path) :
    ps.owner? file = none ∧ (∀ e ∈ ps.entries, ∀ n, ¬ e.1.Encloses file n) ∨
      ∃ p n name, ps.owner? file = some (p, name) ∧ Owns ps.entries file p n name := by
  rw [owner?]
  rcases ownerOf?_cases h.apart with ⟨hnone, hall⟩ | ⟨p, n, name, hsome, howns⟩
  · exact .inl ⟨by rw [hnone]; rfl, hall⟩
  · exact .inr ⟨p, n, name, by rw [hsome]; rfl, howns⟩

theorem Owns.owner? (h : InOrder ps.entries) (howns : Owns ps.entries file p n name) :
    ps.owner? file = some (p, name) := by
  rcases owner?_cases h file with ⟨-, hall⟩ | ⟨q, m, old, hsome, howns'⟩
  · exact absurd howns.encloses (hall _ howns.mem n)
  · obtain ⟨rfl, -, rfl⟩ := Prod.mk.inj (howns.unique howns') |>.imp_right Prod.mk.inj
    exact hsome

/-- A descriptor that lies elsewhere, or less deep than the owner, changes nothing. -/
theorem owner?_insert (h : InOrder ps.entries)
    (hless : ∀ m, p.Encloses file m → ∃ q n old, Owns ps.entries file q n old ∧ m < n) :
    (ps.insert p name).owner? file = ps.owner? file := by
  have h' : InOrder (ps.insert p name).entries := h.insertInto p name
  rcases owner?_cases h file with ⟨hnone, hall⟩ | ⟨q, n, old, hsome, howns⟩
  · have hout (m : Nat) : ¬ p.Encloses file m := fun hm =>
      have ⟨q, n, old, howns, _⟩ := hless m hm
      hall _ howns.mem n howns.encloses
    rw [hnone]
    rcases owner?_cases h' file with ⟨hnone', -⟩ | ⟨r, l, new, -, howns⟩
    · exact hnone'
    · by_cases hcomp : r.components = p.components
      · exact absurd (howns.encloses.congr hcomp) (hout l)
      · exact absurd howns.encloses (hall _ ((mem_insertInto_of_ne hcomp).mp howns.mem) l)
  · have hdeeper (m : Nat) (hm : p.Encloses file m) : m < n := by
      obtain ⟨q', n', old', howns', hlt⟩ := hless m hm
      obtain ⟨-, rfl, -⟩ := Prod.mk.inj (howns.unique howns') |>.imp_right Prod.mk.inj
      exact hlt
    have hne : q.components ≠ p.components := fun hcomp =>
      absurd (hdeeper n (howns.encloses.congr hcomp)) (Nat.lt_irrefl n)
    rw [hsome]
    refine Owns.owner? h' ⟨(mem_insertInto_of_ne hne).mpr howns.mem, howns.encloses, ?_⟩
    intro e he m hm
    by_cases hcomp : e.1.components = p.components
    · exact .inr (.inl (hdeeper m (hm.congr hcomp)))
    · exact howns.outranks e ((mem_insertInto_of_ne hcomp).mp he) m hm

/-- A file belongs to the deepest descriptor around it, whatever the order in which descriptors were
added, and descriptors elsewhere or higher up do not change that. -/
theorem owner?_deepest (es : List (Path × Text)) (file : Path) :
    let ps := ofInserts es
    (ps.owner? file = none ↔ ∀ e ∈ es, ∀ n, ¬ e.1.Encloses file n) ∧
    (∀ p name, ps.owner? file = some (p, name) →
      p ∈ es.map Prod.fst ∧ LastNamed es p name ∧ ∃ n, p.Encloses file n ∧
        ∀ e ∈ es, ∀ m, e.1.Encloses file m →
          e.1.components = p.components ∨ Outranks p n e.1 m) ∧
    (es.Pairwise Apart → ∀ es', es'.Perm es → (ofInserts es').owner? file = ps.owner? file) ∧
    (∀ p name, (∀ n, ¬ p.Encloses file n) → (ps.insert p name).owner? file = ps.owner? file) ∧
    ∀ p name dir q old dir', p.parent? = some dir → ps.owner? file = some (q, old) →
      q.parent? = some dir' → dir.components.length < dir'.components.length →
        (ps.insert p name).owner? file = ps.owner? file := by
  intro ps
  have horder : InOrder ps.entries := ofInserts_inOrder es
  refine ⟨?_, fun p name howner => ?_, fun hapart es' hperm => ?_, fun p name hout => ?_,
    fun p name dir q old dir' hdir howner hdir' hlt => ?_⟩
  · rcases owner?_cases horder file with ⟨hnone, hall⟩ | ⟨p, n, name, hsome, howns⟩
    · refine iff_of_true hnone fun e he n hn => ?_
      obtain ⟨e', he', hcomp⟩ := exists_mem_ofInserts he
      exact hall e' he' n (hn.congr hcomp.symm)
    · refine iff_of_false (by rw [hsome]; exact Option.some_ne_none _) fun hall => ?_
      obtain ⟨e, he, rfl⟩ := List.mem_map.mp (of_mem_ofInserts howns.mem).1
      exact hall e he n howns.encloses
  · rcases owner?_cases horder file with ⟨hnone, -⟩ | ⟨q, n, old, hsome, howns⟩
    · cases hnone.symm.trans howner
    · obtain ⟨rfl, rfl⟩ := Prod.mk.inj (Option.some.inj (hsome.symm.trans howner))
      obtain ⟨hmem, hnamed⟩ := of_mem_ofInserts howns.mem
      refine ⟨hmem, hnamed, n, howns.encloses, fun e he m hm => ?_⟩
      obtain ⟨e', he', hcomp⟩ := exists_mem_ofInserts he
      rcases howns.outranks e' he' m (hm.congr hcomp.symm) with rfl | hlt
      · exact .inl hcomp.symm
      · exact .inr (hlt.congr hcomp)
  · rw [ofInserts_congr hapart hperm]
  · exact owner?_insert horder fun m hm => absurd hm (hout m)
  · rcases owner?_cases horder file with ⟨hnone, -⟩ | ⟨q', n, old', hsome, howns⟩
    · cases hnone.symm.trans howner
    · obtain ⟨rfl, rfl⟩ := Prod.mk.inj (Option.some.inj (hsome.symm.trans howner))
      refine owner?_insert horder fun m hm => ⟨q', n, old', howns, ?_⟩
      rw [hm.depth_eq hdir, howns.encloses.depth_eq hdir']
      exact hlt

/-- Of the two descriptors in `web/app` the C# project goes first, in either order. -/
theorem owner?_deepest_of_nested :
    let es : List (Path × Text) := [(.ofString "web/package.json", "web".toList),
      (.ofString "web/app/package.json", "app".toList),
      (.ofString "web/app/App.csproj", "App".toList)]
    let file := Path.ofString "web/app/src/x.cs"
    es.Pairwise Apart ∧
      (ofInserts es).owner? file = some (.ofString "web/app/App.csproj", "App".toList) ∧
      (ofInserts es.reverse).owner? file = (ofInserts es).owner? file ∧
      ((ofInserts es).insert (.ofString "angular.json") "all".toList).owner? file =
        (ofInserts es).owner? file := by
  intro es file
  have hapart : es.Pairwise Apart := by decide
  have howner : (ofInserts es).owner? file =
      some (.ofString "web/app/App.csproj", "App".toList) := by decide
  obtain ⟨-, -, hperm, -, hshallow⟩ := owner?_deepest es file
  exact ⟨hapart, howner, hperm hapart _ (List.reverse_perm es),
    hshallow _ _ (.ofString "") _ _ (.ofString "web/app") (by decide) howner (by decide)
      (by decide)⟩

end Projects

end CleanCopy
