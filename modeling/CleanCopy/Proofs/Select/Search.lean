import CleanCopy.Proofs.Files.Read
import CleanCopy.Proofs.Files.Walk
import CleanCopy.Select.Search

namespace CleanCopy.Disk

open CleanCopy.Path

variable {d e : Disk} {ws : Writes} {o : SearchOptions} {dir : Path} {start way x : Place}
  {c : ByteArray}

/-- The ways from a directory to the files that a search finds. -/
def waysBelow (d : Disk) (o : SearchOptions) (start : Place) : List Place :=
  match d.root.get? start with
  | some n => n.walk (d.admits o start) []
  | none => []

theorem Reaches.filesBelow (h : d.Reaches dir start) (hne : dir.text ≠ []) :
    d.filesBelow o dir = .ok ((d.waysBelow o start).map dir.joinAll) := by
  obtain ⟨es, hes⟩ := Node.sight_eq_dir.mp h.dir
  rw [Disk.filesBelow, Disk.resolve, resolveFrom, if_neg (by simpa using hne), h.resolve, waysBelow]
  simp only [hes]
  rfl

theorem Enters.filesBelow (h : d.Enters dir start) (ht : d.Tidy) (hne : dir.text ≠ []) :
    d.filesBelow o dir = .ok ((d.waysBelow o start).map dir.joinAll) :=
  (h.reaches ht).filesBelow hne

theorem mem_waysBelow (ho : d.root.Ordered) : way ∈ d.waysBelow o start ↔
    (∃ c, d.look (start ++ way) = some (some c)) ∧ Node.Admitted (d.admits o start) [] way := by
  rw [waysBelow, look, Node.look]
  cases hn : d.root.get? start with
  | none => simp [Node.get?_append, hn]
  | some n =>
    have hwalk : [] ++ way ∈ n.walk (d.admits o start) [] ↔ _ := Node.mem_walk (ho.get? hn)
    rw [List.nil_append] at hwalk
    rw [hwalk, Node.get?_append, hn]
    rfl

theorem Tidy.mem_waysBelow (ht : d.Tidy) : way ∈ d.waysBelow o start ↔
    (∃ c, d.look (start ++ way) = some (some c)) ∧ Node.Admitted (d.admits o start) [] way :=
  Disk.mem_waysBelow ht.root.ordered

theorem waysBelow_pairwise (ho : d.root.Ordered) : (d.waysBelow o start).Pairwise Place.Before := by
  rw [waysBelow]
  cases hn : d.root.get? start with
  | none => exact List.Pairwise.nil
  | some n => exact Node.walk_pairwise n [] (ho.get? hn)

theorem Tidy.waysBelow_pairwise (ht : d.Tidy) : (d.waysBelow o start).Pairwise Place.Before :=
  Disk.waysBelow_pairwise ht.root.ordered

theorem Tidy.isName_of_look {v : Option ByteArray} (ht : d.Tidy) (h : d.look (start ++ way) = some v) :
    ∀ n ∈ way, n.IsName := by
  obtain ⟨node, hn, -⟩ := Option.map_eq_some_iff.mp h
  exact fun n hm => (ht.root.get? hn).2 n (List.mem_append_right _ hm)

/-- Paths come in the order of the ways that are joined to one directory. -/
theorem joinAll_pairwise {ways : List Place} (hnames : ∀ way ∈ ways, ∀ n ∈ way, n.IsName)
    (h : ways.Pairwise Place.Before) :
    (ways.map dir.joinAll).Pairwise fun p q => p.compare q = .lt := by
  refine List.pairwise_map.mpr (h.imp_of_mem fun hx hy hbefore => ?_)
  rw [Path.compare, components_joinAll (hnames _ hx), components_joinAll (hnames _ hy),
    Component.compareAll_append]
  exact hbefore

/-- Without regard to ignore files a search stays out of nothing but the directories to skip. -/
theorem admitted_iff (ho : o.heedIgnoreFiles = false) :
    Node.Admitted (d.admits o start) [] way ↔ ∀ f ∈ way.dropLast, f ∉ o.skip := by
  have hadmits (front : Place) (f : Text) (isDir : Bool) :
      d.admits o start (front ++ [f]) isDir = true ↔ (isDir = true → f ∉ o.skip) := by
    rw [Disk.admits, ho, List.getLast?_concat]
    cases isDir <;> simp
  constructor
  · intro h f hf
    obtain ⟨front, back, hsplit⟩ := List.append_of_mem hf
    have hne : way ≠ [] := by
      rintro rfl
      cases hf
    have hway : way = (front ++ [f]) ++ (back ++ [way.getLast hne]) := by
      conv_lhs => rw [← List.dropLast_append_getLast hne, hsplit]
      simp
    have := h _ _ hway (by simp)
    rw [List.nil_append, hadmits] at this
    exact this (by simp)
  · intro h front back hway hfront
    obtain ⟨ls, f, rfl⟩ := (List.eq_nil_or_concat' front).resolve_left hfront
    rw [List.nil_append, hadmits]
    intro hback
    apply h
    rw [hway, List.dropLast_append_of_ne_nil (of_decide_eq_true hback)]
    simp

theorem verdict_congr {file : Path} (h : ∀ base, e.rulesAt file base = d.rulesAt file base)
    (isDir : Bool) (base names : Place) :
    e.verdict file isDir base names = d.verdict file isDir base names := by
  induction names generalizing base with
  | nil => rfl
  | cons n names ih => rw [Disk.verdict, Disk.verdict, ih, h]

section copies
variable (h : d.Becomes ws e) (hws : AreCopies ws) (ht : d.Tidy)
include h hws ht

theorem Becomes.rulesAt (file : Path) (ms : List Text) (n : Text) (hp : file.text ≠ [])
    (hsteps : file.steps = (ms ++ [n]).map .name) (hn : ¬ ".txt".toList <:+ n) (base : Place) :
    e.rulesAt file base = d.rulesAt file base := by
  have hcopy : ¬ Place.IsCopy (base ++ (ms ++ [n])) := by
    rwa [← List.append_assoc, Place.isCopy_concat_iff]
  have hbytes {d : Disk} (ht : d.Tidy) (c : ByteArray) :
      d.bytesFrom base file = .ok c ↔ d.look (base ++ (ms ++ [n])) = some (some c) := by
    rw [ht.bytesFrom_eq_ok, hsteps]
    constructor
    · rintro ⟨-, y, hy, hc⟩
      rwa [← (Node.look_of_follow_names ht.root (by simp) hy).1]
    · exact fun hc => ⟨hp, _, Node.follow_names ht.root hc, hc⟩
  have hsame (c : ByteArray) : e.bytesFrom base file = .ok c ↔ d.bytesFrom base file = .ok c := by
    rw [hbytes ht, hbytes (h.isTidy ht)]
    exact h.file_of_not_isCopy hws hcopy
  rw [Disk.rulesAt, Disk.rulesAt]
  cases hd : d.bytesFrom base file with
  | ok c => rw [(hsame c).mpr hd]
  | error err =>
    cases he : e.bytesFrom base file with
    | ok c => cases hd.symm.trans ((hsame c).mp he)
    | error err => rfl

/-- No rules are in copies, so that a search is admitted to the same entries. -/
theorem Becomes.admits : e.admits o start = d.admits o start := by
  have hshared := h.rulesAt hws ht Ignore.sharedRules [] ".gitignore".toList (by decide) rfl (by decide)
  have hprivate := h.rulesAt hws ht Ignore.privateRules
    [".git".toList, "info".toList] "exclude".toList (by decide) rfl (by decide)
  funext way isDir
  rw [Disk.admits, Disk.admits, ignores, ignores, verdict_congr hshared,
    verdict_congr hprivate]

/-- A search for other files than copies finds the same ones. -/
theorem Becomes.filter_waysBelow (hstart : d.look start = some none) {keep : Place → Bool}
    (hkeep : ∀ ms n, (∀ m ∈ ms ++ [n], m.IsName) → keep (ms ++ [n]) = true → ¬ ".txt".toList <:+ n) :
    (e.waysBelow o start).filter keep = (d.waysBelow o start).filter keep := by
  have hte := h.isTidy ht
  apply Place.eq_of_pairwise_before (hte.waysBelow_pairwise.filter _) (ht.waysBelow_pairwise.filter _)
  intro way
  rw [List.mem_filter, List.mem_filter, ht.mem_waysBelow, hte.mem_waysBelow, h.admits hws ht]
  refine and_congr_left fun hk => and_congr_left fun _ => exists_congr fun c => ?_
  have hfile (hnames : ∀ n ∈ way, n.IsName) (hne : way ≠ []) :
      e.look (start ++ way) = some (some c) ↔ d.look (start ++ way) = some (some c) := by
    obtain ⟨ms, n, rfl⟩ := (List.eq_nil_or_concat' way).resolve_left hne
    apply h.file_of_not_isCopy hws
    rw [← List.append_assoc, Place.isCopy_concat_iff]
    exact hkeep ms n hnames hk
  -- The start itself is a directory on both disks.
  by_cases hne : way = []
  · rw [hne, List.append_nil, h.dir start hstart, hstart]
  · constructor
    · exact fun hc => (hfile (hte.isName_of_look hc) hne).mp hc
    · exact fun hc => (hfile (ht.isName_of_look hc) hne).mpr hc

end copies

end CleanCopy.Disk
