import CleanCopy.Project.AssemblyName
import CleanCopy.Proofs.Xml.Tree

namespace CleanCopy.Xml

def Item.isCalled (called : Text) (i : Item) : Bool := i.name?.any fun name => localName name = called

def Item.isFlat : Item → Bool
  | cdata _ _ | comment _ _ => true
  | instruction _ _ | doctype _ _ _ | empty _ => false

namespace Content

/-- The first element of a name in document order: what is written up to its content, and the
content. -/
def first? (called : Text) : Content → Option (Text × Content)
  | text _ => none
  | item ls i rest =>
    if i.isCalled called then some (writeText ls ++ i.write, text [])
    else (rest.first? called).map (Prod.map (writeText ls ++ i.write ++ ·) id)
  | element ls tag inner gap rest =>
    if localName tag.name.val = called then some (writeText ls ++ tag.start, inner)
    else
      match inner.first? called with
      | some (front, content) => some (writeText ls ++ tag.start ++ front, content)
      | none =>
        (rest.first? called).map
          (Prod.map (writeText ls ++ tag.start ++ inner.write ++ tag.stop gap ++ ·) id)

/-- The first element of a name that no other element is around: what is written up to its end, and
its content. -/
def child? (called : Text) : Content → Option (Text × Content)
  | text _ => none
  | item ls i rest =>
    if i.isCalled called then some (writeText ls ++ i.write, text [])
    else (rest.child? called).map (Prod.map (writeText ls ++ i.write ++ ·) id)
  | element ls tag inner gap rest =>
    if localName tag.name.val = called then
      some (writeText ls ++ tag.start ++ inner.write ++ tag.stop gap, inner)
    else
      (rest.child? called).map
        (Prod.map (writeText ls ++ tag.start ++ inner.write ++ tag.stop gap ++ ·) id)

/-- Nothing but comments, CDATA and text without entities that a document has to declare. -/
def IsFlat : Content → Prop
  | text ls => ∀ l ∈ ls, l.char?.isSome = true
  | item ls i rest => (∀ l ∈ ls, l.char?.isSome = true) ∧ i.isFlat = true ∧ rest.IsFlat
  | element _ _ _ _ _ => False

/-- Every element that is called so has an end tag and flat content. -/
def IsPlain (called : Text) : Content → Prop
  | text _ => True
  | item _ i rest => i.isCalled called = false ∧ rest.IsPlain called
  | element _ tag inner _ rest =>
    (localName tag.name.val = called → inner.IsFlat) ∧ inner.IsPlain called ∧ rest.IsPlain called

instance decidableIsFlat : (c : Content) → Decidable c.IsFlat
  | text _ => inferInstanceAs (Decidable (∀ _ ∈ _, _))
  | item _ _ rest =>
    have := decidableIsFlat rest
    inferInstanceAs (Decidable (_ ∧ _ ∧ _))
  | element _ _ _ _ _ => .isFalse id

instance decidableIsPlain (called : Text) : (c : Content) → Decidable (c.IsPlain called)
  | text _ => .isTrue trivial
  | item _ _ rest =>
    have := decidableIsPlain called rest
    inferInstanceAs (Decidable (_ ∧ _))
  | element _ _ inner _ rest =>
    have := decidableIsPlain called inner
    have := decidableIsPlain called rest
    inferInstanceAs (Decidable ((_ → _) ∧ _ ∧ _))

variable {called other front inside : Text} {c group name : Content}

/-- How the first element of a name is come upon. -/
inductive First (called : Text) : Content → Text → Content → Prop
  | empty {ls : List Letter} {i : Item} {rest : Content} (h : i.isCalled called = true) :
    First called (item ls i rest) (writeText ls ++ i.write) (text [])
  | item {ls : List Letter} {i : Item} {rest group : Content} {front : Text}
      (h : i.isCalled called = false) (hrest : First called rest front group) :
    First called (item ls i rest) (writeText ls ++ i.write ++ front) group
  | here {ls : List Letter} {tag : Tag} {inner : Content} {gap : Gap} {rest : Content}
      (h : localName tag.name.val = called) :
    First called (element ls tag inner gap rest) (writeText ls ++ tag.start) inner
  | inner {ls : List Letter} {tag : Tag} {inner : Content} {gap : Gap} {rest group : Content}
      {front : Text} (h : localName tag.name.val ≠ called) (hinner : First called inner front group) :
    First called (element ls tag inner gap rest) (writeText ls ++ tag.start ++ front) group
  | rest {ls : List Letter} {tag : Tag} {inner : Content} {gap : Gap} {rest group : Content}
      {front : Text} (h : localName tag.name.val ≠ called) (hinner : inner.first? called = none)
      (hrest : First called rest front group) :
    First called (element ls tag inner gap rest)
      (writeText ls ++ tag.start ++ inner.write ++ tag.stop gap ++ front) group

theorem first_of_first? (h : c.first? called = some (front, group)) : First called c front group := by
  induction c generalizing front with
  | text ls => cases h
  | item ls i rest ih =>
    rw [first?] at h
    split at h
    · rename_i hi
      obtain ⟨rfl, rfl⟩ := Prod.mk.inj (Option.some.inj h)
      exact .empty hi
    · rename_i hi
      obtain ⟨⟨front', group'⟩, hrest, heq⟩ := Option.map_eq_some_iff.mp h
      obtain ⟨rfl, rfl⟩ := Prod.mk.inj heq
      exact .item (Bool.eq_false_iff.mpr hi) (ih hrest)
  | element ls tag inner gap rest ihinner ihrest =>
    rw [first?] at h
    split at h
    · rename_i hname
      obtain ⟨rfl, rfl⟩ := Prod.mk.inj (Option.some.inj h)
      exact .here hname
    · rename_i hname
      split at h
      · rename_i hinner
        obtain ⟨rfl, rfl⟩ := Prod.mk.inj (Option.some.inj h)
        exact .inner hname (ihinner hinner)
      · rename_i hinner
        obtain ⟨⟨front', group'⟩, hrest, heq⟩ := Option.map_eq_some_iff.mp h
        obtain ⟨rfl, rfl⟩ := Prod.mk.inj heq
        exact .rest hname hinner (ihrest hrest)

theorem First.first? (h : First called c front group) : c.first? called = some (front, group) := by
  induction h with
  | empty h => rw [Content.first?, if_pos h]
  | item h hrest ih => rw [Content.first?, if_neg (Bool.eq_false_iff.mp h), ih]; rfl
  | here h => rw [Content.first?, if_pos h]
  | inner h hinner ih => rw [Content.first?, if_neg h, ih]
  | rest h hinner hrest ih => rw [Content.first?, if_neg h, hinner, ih]; rfl

theorem first?_eq_some_iff : c.first? called = some (front, group) ↔ First called c front group :=
  ⟨first_of_first?, First.first?⟩

/-- How the first child of a name is come upon. -/
inductive Child (called : Text) : Content → Text → Content → Prop
  | empty {ls : List Letter} {i : Item} {rest : Content} (h : i.isCalled called = true) :
    Child called (item ls i rest) (writeText ls ++ i.write) (text [])
  | item {ls : List Letter} {i : Item} {rest name : Content} {front : Text}
      (h : i.isCalled called = false) (hrest : Child called rest front name) :
    Child called (item ls i rest) (writeText ls ++ i.write ++ front) name
  | here {ls : List Letter} {tag : Tag} {inner : Content} {gap : Gap} {rest : Content}
      (h : localName tag.name.val = called) :
    Child called (element ls tag inner gap rest)
      (writeText ls ++ tag.start ++ inner.write ++ tag.stop gap) inner
  | rest {ls : List Letter} {tag : Tag} {inner : Content} {gap : Gap} {rest name : Content}
      {front : Text} (h : localName tag.name.val ≠ called) (hrest : Child called rest front name) :
    Child called (element ls tag inner gap rest)
      (writeText ls ++ tag.start ++ inner.write ++ tag.stop gap ++ front) name

theorem child_of_child? (h : c.child? called = some (front, name)) : Child called c front name := by
  induction c generalizing front with
  | text ls => cases h
  | item ls i rest ih =>
    rw [child?] at h
    split at h
    · rename_i hi
      obtain ⟨rfl, rfl⟩ := Prod.mk.inj (Option.some.inj h)
      exact .empty hi
    · rename_i hi
      obtain ⟨⟨front', name'⟩, hrest, heq⟩ := Option.map_eq_some_iff.mp h
      obtain ⟨rfl, rfl⟩ := Prod.mk.inj heq
      exact .item (Bool.eq_false_iff.mpr hi) (ih hrest)
  | element ls tag inner gap rest ihinner ihrest =>
    rw [child?] at h
    split at h
    · rename_i hname
      obtain ⟨rfl, rfl⟩ := Prod.mk.inj (Option.some.inj h)
      exact .here hname
    · rename_i hname
      obtain ⟨⟨front', name'⟩, hrest, heq⟩ := Option.map_eq_some_iff.mp h
      obtain ⟨rfl, rfl⟩ := Prod.mk.inj heq
      exact .rest hname (ihrest hrest)

theorem Child.child? (h : Child called c front name) : c.child? called = some (front, name) := by
  induction h with
  | empty h => rw [Content.child?, if_pos h]
  | item h hrest ih => rw [Content.child?, if_neg (Bool.eq_false_iff.mp h), ih]; rfl
  | here h => rw [Content.child?, if_pos h]
  | rest h hrest ih => rw [Content.child?, if_neg h, ih]; rfl

theorem child?_eq_some_iff : c.child? called = some (front, name) ↔ Child called c front name :=
  ⟨child_of_child?, Child.child?⟩

theorem First.isPlain (h : First other c front group) (hc : c.IsPlain called) :
    group.IsPlain called := by
  induction h with
  | empty h => trivial
  | item h hrest ih => exact ih hc.2
  | here h => exact hc.2.1
  | inner h hinner ih => exact ih hc.2.1
  | rest h hinner hrest ih => exact ih hc.2.2

theorem First.isPrefix (h : First called c front group) : front ++ group.write <+: c.write := by
  induction h with
  | empty h => exact (List.prefix_append_right_inj _).mpr List.nil_prefix
  | item h hrest ih =>
    rw [List.append_assoc]
    exact (List.prefix_append_right_inj _).mpr ih
  | here h => exact (List.prefix_append _ _).trans (List.prefix_append _ _)
  | inner h hinner ih =>
    rw [List.append_assoc]
    exact (((List.prefix_append_right_inj _).mpr ih).trans (List.prefix_append _ _)).trans
      (List.prefix_append _ _)
  | rest h hinner hrest ih =>
    rw [List.append_assoc]
    exact (List.prefix_append_right_inj _).mpr ih

theorem Child.isPrefix (h : Child called c front name) : front <+: c.write := by
  induction h with
  | empty h => exact List.prefix_append _ _
  | item h hrest ih => exact (List.prefix_append_right_inj _).mpr ih
  | here h => exact List.prefix_append _ _
  | rest h hrest ih => exact (List.prefix_append_right_inj _).mpr ih

theorem Child.ne_nil (h : Child called c front name) : front ≠ [] := by
  induction h with
  | empty h => exact List.append_ne_nil_of_right_ne_nil _ (List.cons_ne_nil _ _)
  | item h hrest ih => exact List.append_ne_nil_of_right_ne_nil _ ih
  | here h => exact List.append_ne_nil_of_right_ne_nil _ (List.cons_ne_nil _ _)
  | rest h hrest ih => exact List.append_ne_nil_of_right_ne_nil _ ih

theorem First.append_isPrefix (h : First called c front group)
    (hchild : Child other group inside name) : front ++ inside <+: c.write :=
  ((List.prefix_append_right_inj front).mpr hchild.isPrefix).trans h.isPrefix

end Content

end CleanCopy.Xml
