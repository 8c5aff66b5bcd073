import CleanCopy.Proofs.Xml.Find
import CleanCopy.Proofs.Xml.Reading

namespace CleanCopy

namespace NameSearch

open Xml

variable {d g : Nat} {s : NameSearch} {es : List Event} {acc front name rest : Text}
  {c group content : Content} {opened : List Text}

theorem run_textEvents (hs : s.name = none) (ls : List Letter) :
    s.run (textEvents ls ++ es) = s.run es := by
  cases ls with
  | nil => rfl
  | cons l ls => rw [textEvents, List.singleton_append, run, hs]

theorem enter_outside (h : localName name ≠ "PropertyGroup".toList) :
    enter ⟨d, none, none⟩ name = ⟨d + 1, none, none⟩ :=
  if_neg (by rwa [isGroup, decide_eq_true_eq])

theorem enter_group (h : localName name = "PropertyGroup".toList) :
    enter ⟨d, none, none⟩ name = ⟨d + 1, some (d + 1), none⟩ :=
  if_pos (by rwa [isGroup, decide_eq_true_eq])

theorem enter_within (h : ¬ (d = g ∧ localName name = "AssemblyName".toList)) :
    enter ⟨d, some g, none⟩ name = ⟨d + 1, some g, none⟩ :=
  if_neg (by rwa [Bool.and_eq_true, decide_eq_true_eq, decide_eq_true_eq, Nat.succ_inj])

theorem enter_name (h : localName name = "AssemblyName".toList) :
    enter ⟨g, some g, none⟩ name = ⟨g + 1, some g, some []⟩ :=
  if_pos (by rw [Bool.and_eq_true, decide_eq_true_eq, decide_eq_true_eq]; exact ⟨rfl, h⟩)

theorem run_stop {o : Option Nat} (h : o ≠ some (d + 1)) (name : Text) :
    run ⟨d + 1, o, none⟩ (.stop name :: es) = run ⟨d, o, none⟩ es := by
  rw [run]
  exact if_neg h

theorem run_item_outside {i : Item} (h : i.isCalled "PropertyGroup".toList = false) :
    run ⟨d, none, none⟩ (i.event :: es) = run ⟨d, none, none⟩ es := by
  cases i with
  | empty tag =>
    rw [Item.event, run, if_neg]
    rw [Bool.and_eq_true]
    intro hgroup
    exact absurd hgroup.2 (Bool.eq_false_iff.mp h)
  | _ => rfl

theorem run_item_within (i : Item) :
    run ⟨d, some g, none⟩ (i.event :: es) = run ⟨d, some g, none⟩ es := by
  cases i <;> rfl

/-- An element whose tags change the depth alone is passed, when its content is. -/
theorem run_passed {o : Option Nat} {ls : List Letter} {inner : List Event}
    (henter : enter ⟨d, o, none⟩ name = ⟨d + 1, o, none⟩) (ho : o ≠ some (d + 1))
    (hinner : ∀ es, run ⟨d + 1, o, none⟩ (inner ++ es) = run ⟨d + 1, o, none⟩ es) :
    run ⟨d, o, none⟩ (textEvents ls ++ .start name :: (inner ++ .stop name :: es)) =
      run ⟨d, o, none⟩ es := by
  rw [run_textEvents rfl, run, henter, hinner, run_stop ho]

/-- Before the first group nothing is remembered. -/
theorem run_outside (h : c.first? "PropertyGroup".toList = none) :
    run ⟨d, none, none⟩ (c.events ++ es) = run ⟨d, none, none⟩ es := by
  induction c generalizing d es with
  | text ls => exact run_textEvents rfl ls
  | item ls i rest ih =>
    rw [Content.first?] at h
    split at h
    · cases h
    · rename_i hi
      rw [Content.events, List.append_assoc, run_textEvents rfl, List.cons_append,
        run_item_outside (Bool.eq_false_iff.mpr hi)]
      exact ih (Option.map_eq_none_iff.mp h)
  | element ls tag inner gap rest ihinner ihrest =>
    rw [Content.first?] at h
    split at h
    · cases h
    · rename_i hname
      split at h
      · cases h
      · rename_i hinner
        rw [Content.events]
        simp only [List.append_assoc, List.cons_append]
        rw [run_passed (enter_outside hname) (Option.some_ne_none _).symm fun _ => ihinner hinner]
        exact ihrest (Option.map_eq_none_iff.mp h)

/-- In the first group only a name right below it matters. -/
theorem run_within (hle : g ≤ d) (h : d = g → c.child? "AssemblyName".toList = none) :
    run ⟨d, some g, none⟩ (c.events ++ es) = run ⟨d, some g, none⟩ es := by
  induction c generalizing d es with
  | text ls => exact run_textEvents rfl ls
  | item ls i rest ih =>
    rw [Content.events, List.append_assoc, run_textEvents rfl, List.cons_append, run_item_within]
    refine ih hle fun hd => ?_
    have hnone := h hd
    rw [Content.child?] at hnone
    split at hnone
    · cases hnone
    · exact Option.map_eq_none_iff.mp hnone
  | element ls tag inner gap rest ihinner ihrest =>
    rw [Content.events]
    simp only [List.append_assoc, List.cons_append]
    have hchild (hd : d = g) : localName tag.name.val ≠ "AssemblyName".toList ∧
        rest.child? "AssemblyName".toList = none := by
      have hnone := h hd
      rw [Content.child?] at hnone
      split at hnone
      · cases hnone
      · rename_i hname
        exact ⟨hname, Option.map_eq_none_iff.mp hnone⟩
    rw [run_passed (enter_within fun hand => (hchild hand.1).1 hand.2) (by simp; omega)
      fun _ => ihinner (by omega) (by omega)]
    exact ihrest hle fun hd => (hchild hd).2

theorem run_textEvents_name {ls : List Letter} (h : ∀ l ∈ ls, l.char?.isSome = true) :
    run ⟨d, some g, some acc⟩ (textEvents ls ++ es) =
      run ⟨d, some g, some (acc ++ textValue ls)⟩ es := by
  cases ls with
  | nil => rw [textEvents, List.nil_append, textValue, List.filterMap_nil, List.append_nil]
  | cons l ls =>
    rw [textEvents, List.singleton_append, run]
    dsimp only
    rw [unescape?_writeText h]

/-- Flat content adds its text to the name, and the end of the element decides. -/
theorem run_name (h : c.IsFlat) :
    run ⟨d, some g, some acc⟩ (c.events ++ .stop name :: es) = (acc ++ c.value).nonBlank? := by
  induction c generalizing acc with
  | text ls =>
    rw [Content.events, run_textEvents_name h]
    rfl
  | item ls i rest ih =>
    obtain ⟨hls, hi, hrest⟩ := h
    rw [Content.events, Content.value, List.append_assoc, run_textEvents_name hls, List.cons_append,
      List.append_assoc, ← List.append_assoc acc, ← List.append_assoc (acc ++ textValue ls)]
    cases i with
    | cdata body _ => exact ih hrest
    | comment body _ =>
      rw [Item.value, List.append_nil]
      exact ih hrest
    | instruction | doctype | empty => cases hi
  | element => exact h.elim

/-- The name is read up to the end of its element, whatever follows. -/
theorem run_child (h : Content.Child "AssemblyName".toList c front content)
    (hc : c.IsPlain "AssemblyName".toList) :
    run ⟨g, some g, none⟩ (eventsFrom opened (front ++ rest)) = content.value.nonBlank? := by
  induction h with
  | empty hi =>
    rw [hc.1] at hi
    cases hi
  | item hi hrest ih =>
    rw [List.append_assoc, List.append_assoc, eventsFrom_writeText _ (opens_item _),
      eventsFrom_item, run_textEvents rfl, run_item_within]
    exact ih hc.2
  | here hname =>
    rw [eventsFrom_element, run_textEvents rfl, run, enter_name hname, run_name (hc.1 hname)]
    rfl
  | rest hname hrest ih =>
    rw [List.append_assoc, eventsFrom_element,
      run_passed (enter_within fun hand => hname hand.2) (by simp)
        fun _ => run_within (by omega) (by omega)]
    exact ih hc.2.2

/-- Everything in front of the content of the first group leads right into it. -/
theorem run_first (h : Content.First "PropertyGroup".toList c front group)
    (hgroup : group ≠ .text []) (d : Nat) (opened : List Text) : ∃ e names, ∀ t,
      run ⟨d, none, none⟩ (eventsFrom opened (front ++ t)) =
        run ⟨e, some e, none⟩ (eventsFrom names t) := by
  induction h generalizing d opened with
  | empty hi => exact absurd rfl hgroup
  | item hi hrest ih =>
    obtain ⟨e, names, hrun⟩ := ih hgroup d opened
    refine ⟨e, names, fun t => ?_⟩
    rw [List.append_assoc, List.append_assoc, eventsFrom_writeText _ (opens_item _),
      eventsFrom_item, run_textEvents rfl, run_item_outside hi]
    exact hrun t
  | @here ls tag inner gap rest hname =>
    refine ⟨d + 1, tag.name.val :: opened, fun t => ?_⟩
    rw [List.append_assoc, eventsFrom_writeText ls (opens_start tag), eventsFrom_start,
      run_textEvents rfl, run, enter_group hname]
  | @inner ls tag inner gap rest group front hname hinner ih =>
    obtain ⟨e, names, hrun⟩ := ih hgroup (d + 1) (tag.name.val :: opened)
    refine ⟨e, names, fun t => ?_⟩
    simp only [List.append_assoc]
    rw [eventsFrom_writeText ls (opens_start tag), eventsFrom_start, run_textEvents rfl, run,
      enter_outside hname]
    exact hrun t
  | rest hname hinner hrest ih =>
    obtain ⟨e, names, hrun⟩ := ih hgroup d opened
    refine ⟨e, names, fun t => ?_⟩
    rw [List.append_assoc, eventsFrom_element,
      run_passed (enter_outside hname) (Option.some_ne_none _).symm fun _ => run_outside hinner]
    exact hrun t

/-- A first group without a name ends the search. -/
theorem run_nameless (h : Content.First "PropertyGroup".toList c front group)
    (hgroup : group.child? "AssemblyName".toList = none) :
    run ⟨d, none, none⟩ (c.events ++ es) = none := by
  induction h generalizing d es with
  | @empty ls i rest hi =>
    rw [Content.events, List.append_assoc, run_textEvents rfl, List.cons_append]
    cases i with
    | empty tag => exact if_pos (Bool.and_eq_true_iff.mpr ⟨rfl, hi⟩)
    | _ => cases hi
  | item hi hrest ih =>
    rw [Content.events, List.append_assoc, run_textEvents rfl, List.cons_append,
      run_item_outside hi]
    exact ih hgroup
  | here hname =>
    rw [Content.events]
    simp only [List.append_assoc, List.cons_append]
    rw [run_textEvents rfl, run, enter_group hname, run_within le_rfl (fun _ => hgroup), run]
    exact if_pos rfl
  | inner hname hinner ih =>
    rw [Content.events]
    simp only [List.append_assoc, List.cons_append]
    rw [run_textEvents rfl, run, enter_outside hname]
    exact ih hgroup
  | rest hname hinner hrest ih =>
    rw [Content.events]
    simp only [List.append_assoc, List.cons_append]
    rw [run_passed (enter_outside hname) (Option.some_ne_none _).symm fun _ => run_outside hinner]
    exact ih hgroup

end NameSearch

namespace Xml.Document

/-- The first name right below the first property group: what is written up to its end, and its
text. -/
def declared? (d : Document) : Option (Text × Text) :=
  (d.content.first? "PropertyGroup".toList).bind fun (front, group) =>
    (group.child? "AssemblyName".toList).map fun (inside, name) =>
      (d.mark ++ (front ++ inside), name.value)

variable {d : Document} {through name : Text}

theorem declared?_eq_some_iff : d.declared? = some (through, name) ↔
    ∃ front group inside content, d.content.First "PropertyGroup".toList front group ∧
      group.Child "AssemblyName".toList inside content ∧
      d.mark ++ (front ++ inside) = through ∧ content.value = name := by
  simp only [declared?, Option.bind_eq_some_iff, Option.map_eq_some_iff, Prod.exists,
    Prod.mk.injEq, Content.first?_eq_some_iff, Content.child?_eq_some_iff, exists_and_left]

theorem declared?_isPrefix (h : d.declared? = some (through, name)) : through <+: d.write := by
  obtain ⟨front, group, inside, content, hfirst, hchild, rfl, -⟩ := declared?_eq_some_iff.mp h
  exact (List.prefix_append_right_inj d.mark).mpr (hfirst.append_isPrefix hchild)

/-- What follows the end of the name is not looked at. -/
theorem assemblyName?_through (hplain : d.content.IsPlain "AssemblyName".toList)
    (h : d.declared? = some (through, name)) (junk : Text) :
    assemblyName? (through ++ junk) = name.nonBlank? := by
  obtain ⟨front, group, inside, content, hfirst, hchild, rfl, rfl⟩ := declared?_eq_some_iff.mp h
  have hne : front ++ inside ≠ [] := List.append_ne_nil_of_right_ne_nil front hchild.ne_nil
  have hhead : (front ++ inside ++ junk).head? ≠ some '\uFEFF' := by
    obtain ⟨rest, hrest⟩ := hfirst.append_isPrefix hchild
    have := d.head?_ne
    rw [← hrest, List.head?_append_of_ne_nil _ hne] at this
    rwa [List.head?_append_of_ne_nil _ hne]
  have hgroup : group ≠ .text [] := by
    rintro rfl
    cases hchild
  obtain ⟨e, names, hrun⟩ := NameSearch.run_first hfirst hgroup 0 []
  rw [assemblyName?, List.append_assoc, events_mark d hhead, List.append_assoc]
  exact (hrun _).trans (NameSearch.run_child hchild (hfirst.isPlain hplain))

/-- The search answers with the name that the tree declares, and with nothing where it declares none
or a blank one. The answer is settled at the end of the name: any text may follow it. -/
theorem assemblyName?_write (d : Document) (h : d.content.IsPlain "AssemblyName".toList) :
    assemblyName? d.write = d.declared?.bind (fun found => found.2.nonBlank?) ∧
      ∀ through name, d.declared? = some (through, name) →
        through <+: d.write ∧ ∀ junk, assemblyName? (through ++ junk) = name.nonBlank? := by
  refine ⟨?_, fun through name hd => ⟨declared?_isPrefix hd, assemblyName?_through h hd⟩⟩
  cases hd : d.declared? with
  | some found =>
    obtain ⟨through, name⟩ := found
    obtain ⟨rest, hrest⟩ := declared?_isPrefix hd
    rw [← hrest]
    exact assemblyName?_through h hd rest
  | none =>
    rw [assemblyName?, events_write, ← List.append_nil d.content.events]
    rw [declared?] at hd
    cases hfirst : d.content.first? "PropertyGroup".toList with
    | none => exact NameSearch.run_outside hfirst
    | some found =>
      obtain ⟨front, group⟩ := found
      rw [hfirst, Option.bind_some] at hd
      exact NameSearch.run_nameless (Content.first?_eq_some_iff.mp hfirst) (Option.map_eq_none_iff.mp hd)

end Xml.Document

/-- The name is in the first group, behind one that is in no group and one that is too deep. -/
def exampleProject : Xml.Document :=
  let gap : Xml.Gap := ⟨[], rfl⟩
  let plain (t : Text) (h : ∀ c ∈ t, c ≠ '<' ∧ c ≠ '&') : List Xml.Letter := t.pmap .plain h
  let project : Xml.Tag := ⟨⟨"p:Project".toList, by decide +kernel⟩, [], gap⟩
  let group : Xml.Tag := ⟨⟨"p:PropertyGroup".toList, by decide +kernel⟩,
    [⟨⟨[' '], by decide⟩, ⟨['a'], by decide⟩, gap, gap, '\'', ['>'], by decide, by decide,
      by decide⟩], gap⟩
  let name : Xml.Tag := ⟨⟨"AssemblyName".toList, by decide +kernel⟩, [], gap⟩
  let other : Xml.Tag := ⟨⟨['b'], by decide +kernel⟩, [], gap⟩
  let wrong : Xml.Content :=
    .element [] name (.text (plain ['x'] (by simp))) gap (.text [])
  let right : Xml.Content :=
    .element (plain ['\n'] (by simp)) name
      (.item (plain [' ', 'C'] (by simp) ++ [.named "amp".toList '&' (by decide)])
        (.cdata ['<'] (by decide))
        (.item [] (.comment ['d'] (by decide)) (.text [.hex ['4', '3'] 'C' (by decide) (by decide)])))
      gap (.text [])
  { marked := true
    content := .item [] (.instruction "xml".toList (by decide)) (.element [] project
      (.element [] other wrong gap (.element [] group (.element [] other wrong gap
        (.item [] (.empty other) right)) gap (.text []))) gap (.text []))
    head?_ne := by simp [Xml.Content.write, Xml.writeText, Xml.Item.write] }

theorem assemblyName?_write_of_example :
    exampleProject.content.IsPlain "AssemblyName".toList ∧
      assemblyName? exampleProject.write = some "C&<C".toList ∧
      ∀ junk, assemblyName? (("\uFEFF<?xml?><p:Project><b><AssemblyName>x</AssemblyName></b>".toList ++
        "<p:PropertyGroup a='>'><b><AssemblyName>x</AssemblyName></b><b/>\n".toList ++
        "<AssemblyName> C&amp;<![CDATA[<]]><!--d-->&#x43;</AssemblyName>".toList) ++ junk) =
          some "C&<C".toList := by
  have hplain : exampleProject.content.IsPlain "AssemblyName".toList := by decide +kernel
  have hdeclared : exampleProject.declared? =
      some ("\uFEFF<?xml?><p:Project><b><AssemblyName>x</AssemblyName></b>".toList ++
        "<p:PropertyGroup a='>'><b><AssemblyName>x</AssemblyName></b><b/>\n".toList ++
        "<AssemblyName> C&amp;<![CDATA[<]]><!--d-->&#x43;</AssemblyName>".toList,
        " C&<C".toList) := by decide +kernel
  have hname : Text.nonBlank? " C&<C".toList = some "C&<C".toList := by decide +kernel
  obtain ⟨hwrite, hthrough⟩ := exampleProject.assemblyName?_write hplain
  refine ⟨hplain, ?_, fun junk => ?_⟩
  · rw [hwrite, hdeclared, Option.bind_some, hname]
  · rw [(hthrough _ _ hdeclared).2 junk, hname]

end CleanCopy
