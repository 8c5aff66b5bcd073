import CleanCopy.Proofs.Text.Lists
import CleanCopy.Proofs.Text.Trim
import CleanCopy.Proofs.Xml.Reference

namespace CleanCopy.Xml

variable {t u w p s read rest inside : Text} {ends : Text → Bool} {opened names : List Text}
  {c : Char}

theorem isNameChar_iff : isNameChar c = true ↔
    isSpace c = false ∧ c ∉ ['<', '>', '/', '!', '?', '=', '\'', '\"', '&', ';'] := by
  rw [isNameChar, Bool.and_eq_true, Bool.not_eq_true', decide_eq_true_eq]

theorem Name.forall_isNameChar (name : Name) : ∀ c ∈ name.val, isNameChar c = true :=
  List.all_eq_true.mp name.property.2

theorem Name.notMem (name : Name) (h : isNameChar c = false) : c ∉ name.val := by
  intro hc
  rw [name.forall_isNameChar c hc] at h
  cases h

theorem Gap.forall_isSpace (gap : Gap) : ∀ c ∈ gap.val, isSpace c = true :=
  List.all_eq_true.mp gap.property

theorem Gap.notMem (gap : Gap) (h : isSpace c = false) : c ∉ gap.val := by
  intro hc
  rw [gap.forall_isSpace c hc] at h
  cases h

/-- Nothing ends at a bracket of the text. -/
theorem upTo?_append (h : ∀ p s, t = p ++ '>' :: s → ends (p.reverse ++ read) = false) :
    upTo? ends read (t ++ rest) = upTo? ends (t.reverse ++ read) rest := by
  induction t generalizing read with
  | nil => rfl
  | cons c cs ih =>
    have hcs : ∀ p s, cs = p ++ '>' :: s → ends (p.reverse ++ c :: read) = false := by
      rintro p s rfl
      have := h (c :: p) s rfl
      rwa [List.reverse_cons, List.append_assoc] at this
    rw [List.cons_append, upTo?, if_neg, ih hcs, List.reverse_cons, List.append_assoc]
    · rfl
    · rw [Bool.and_eq_true, decide_eq_true_eq]
      rintro ⟨rfl, hends⟩
      exact absurd hends (Bool.eq_false_iff.mp (h [] cs rfl))

theorem upTo?_append_of_notMem (h : '>' ∉ t) :
    upTo? ends read (t ++ rest) = upTo? ends (t.reverse ++ read) rest :=
  upTo?_append fun _ _ heq => absurd (by rw [heq]; simp) h

theorem upTo?_cons (h : ends read = true) :
    upTo? ends read ('>' :: rest) = some (read.reverse, rest) := by
  rw [upTo?, h]
  rfl

theorem upTo?_cdata {body : Text} (rest : Text) (h : ¬ "]]>".toList <:+: body) :
    upTo? endsCdata [] ("![CDATA[".toList ++ body ++ "]]>".toList ++ rest) =
      some ("![CDATA[".toList ++ body ++ "]]".toList, rest) := by
  have hwithin : ∀ p s, "![CDATA[".toList ++ body = p ++ '>' :: s →
      endsCdata (p.reverse ++ []) = false := by
    intro p s heq
    rw [List.append_nil, Bool.eq_false_iff, endsCdata, Ne, Text.startsWith_iff]
    intro hp
    apply h
    have hin : ("]]".toList ++ '>' :: s) <:+: "![CDATA[".toList ++ body :=
      heq ▸ List.infix_append_of_reverse_prefix hp
    exact List.infix_of_infix_append (by decide) ((List.prefix_append "]]>".toList s).isInfix.trans hin)
  rw [List.append_assoc, upTo?_append hwithin, show "]]>".toList ++ rest = "]]".toList ++ '>' :: rest
    from rfl, upTo?_append_of_notMem (by decide), upTo?_cons]
  · simp
  · rfl

theorem upTo?_comment {body : Text} (rest : Text) (h : ¬ "--".toList <:+: body) :
    upTo? endsComment [] ("!--".toList ++ body ++ "-->".toList ++ rest) =
      some ("!--".toList ++ body ++ "--".toList, rest) := by
  have hwithin : ∀ p s, body = p ++ '>' :: s →
      endsComment (p.reverse ++ "--!".toList) = false := by
    rintro p s rfl
    rw [Bool.eq_false_iff, endsComment, Ne, Bool.and_eq_true, Text.startsWith_iff,
      decide_eq_true_eq]
    rintro ⟨hp, hlen⟩
    -- the length leaves no hyphen of the opening for the end
    have hlen' : 2 ≤ p.reverse.length := by
      simp at hlen ⊢
      omega
    have hp' : ("--".toList : Text).reverse <+: p.reverse :=
      List.prefix_of_prefix_length_le hp (List.prefix_append _ _) hlen'
    exact h ((List.prefix_append _ _).isInfix.trans (List.infix_append_of_reverse_prefix hp'))
  rw [List.append_assoc, List.append_assoc, upTo?_append_of_notMem (by decide),
    show "!--".toList.reverse ++ [] = "--!".toList from rfl, upTo?_append hwithin,
    show "-->".toList ++ rest = "--".toList ++ '>' :: rest from rfl,
    upTo?_append_of_notMem (by decide), upTo?_cons]
  · simp
  · simp [endsComment, Text.startsWith_iff]

theorem upTo?_instruction {body : Text} (rest : Text) (h : ¬ "?>".toList <:+: '?' :: body) :
    upTo? (·.head? == some '?') [] ('?' :: body ++ "?>".toList ++ rest) =
      some ('?' :: body ++ ['?'], rest) := by
  have hwithin : ∀ p s, '?' :: body = p ++ '>' :: s →
      ((p.reverse ++ []).head? == some '?') = false := by
    intro p s heq
    rw [List.append_nil, beq_eq_false_iff_ne]
    intro hp
    apply h
    obtain ⟨q, hq⟩ := List.head?_eq_some_iff.mp hp
    have hin : (['?'] ++ '>' :: s) <:+: '?' :: body :=
      heq ▸ List.infix_append_of_reverse_prefix ⟨q, hq.symm⟩
    exact (List.prefix_append "?>".toList s).isInfix.trans hin
  rw [List.append_assoc, upTo?_append hwithin, show "?>".toList ++ rest = ['?'] ++ '>' :: rest
    from rfl, upTo?_append_of_notMem (by decide), upTo?_cons]
  · simp
  · rfl

/-- A declaration goes on while a bracket is open in it. -/
theorem upTo?_nested {n : Nat} {body : Text} (h : nested n body = true)
    (hread : read.count '<' = read.count '>' + n) :
    upTo? endsDoctype read (body ++ '>' :: rest) =
      some (read.reverse ++ body, rest) := by
  induction body generalizing n read with
  | nil =>
    have hn : n = 0 := by rwa [nested, beq_iff_eq] at h
    rw [List.nil_append, upTo?_cons, List.append_nil]
    rw [endsDoctype, beq_iff_eq, hread, hn, Nat.add_zero]
  | cons c cs ih =>
    have hstep {m : Nat} (hm : nested m cs = true)
        (hcount : (c :: read).count '<' = (c :: read).count '>' + m)
        (hgo : c = '>' → read.count '<' ≠ read.count '>') :
        upTo? endsDoctype read (c :: cs ++ '>' :: rest) = some (read.reverse ++ c :: cs, rest) := by
      rw [List.cons_append, upTo?, if_neg, ih hm hcount, List.reverse_cons, List.append_assoc,
        List.singleton_append]
      rw [Bool.and_eq_true, decide_eq_true_eq, endsDoctype, beq_iff_eq]
      exact fun hends => hgo hends.1 hends.2
    rw [nested] at h
    split at h
    · rename_i hc
      subst hc
      refine hstep h ?_ (fun hc => absurd hc (by decide))
      rw [List.count_cons_self, List.count_cons_of_ne (by decide), hread, Nat.add_assoc]
    · rename_i hopen
      split at h
      · rename_i hc
        subst hc
        obtain ⟨hn, hcs⟩ := Bool.and_eq_true_iff.mp h
        have hn' : n ≠ 0 := by rwa [bne_iff_ne] at hn
        refine hstep hcs ?_ (fun _ => by omega)
        rw [List.count_cons_self, List.count_cons_of_ne (by decide), hread]
        omega
      · rename_i hclose
        refine hstep h ?_ (fun hc => absurd hc hclose)
        rwa [List.count_cons_of_ne hopen, List.count_cons_of_ne hclose]

/-- No quote is left open at the end of `p`, and no bracket is outside of quotes. -/
def Closed (p : Text) : Prop :=
  ∀ t, tag? none (p ++ t) = (tag? none t).map fun (a, b) => (p ++ a, b)

theorem Closed.nil : Closed [] := fun t => by
  rw [List.nil_append]
  exact Option.map_id'.symm

theorem Closed.append (hp : Closed p) (hs : Closed s) : Closed (p ++ s) := fun t => by
  rw [List.append_assoc, hp, hs, Option.map_map]
  simp only [Function.comp_def, List.append_assoc]

theorem Closed.flatten {ps : List Text} (h : ∀ p ∈ ps, Closed p) : Closed ps.flatten := by
  induction ps with
  | nil => exact Closed.nil
  | cons p ps ih =>
    obtain ⟨hp, hps⟩ := List.forall_mem_cons.mp h
    exact hp.append (ih hps)

theorem closed_of_notMem (hend : '>' ∉ p) (hsingle : '\'' ∉ p) (hdouble : '\"' ∉ p) :
    Closed p := by
  induction p with
  | nil => exact Closed.nil
  | cons c cs ih =>
    obtain ⟨hc, hcs⟩ := not_or.mp (mt List.mem_cons.mpr hend)
    obtain ⟨hc', hcs'⟩ := not_or.mp (mt List.mem_cons.mpr hsingle)
    obtain ⟨hc'', hcs''⟩ := not_or.mp (mt List.mem_cons.mpr hdouble)
    have hquote : ¬ (c = '\'' || c = '\"') = true := by
      rw [Bool.or_eq_true, decide_eq_true_eq, decide_eq_true_eq]
      exact not_or.mpr ⟨Ne.symm hc', Ne.symm hc''⟩
    intro t
    rw [List.cons_append, tag?, if_neg (Ne.symm hc), if_neg hquote, ih hcs hcs' hcs'',
      Option.map_map]
    rfl

/-- Within quotes everything up to the same quote is taken. -/
theorem tag?_quoted {q : Char} {value : Text} (h : q ∉ value) :
    tag? (some q) (value ++ q :: t) = (tag? none t).map fun (a, b) => (value ++ q :: a, b) := by
  induction value with
  | nil => rw [List.nil_append, tag?, if_pos rfl]; rfl
  | cons c cs ih =>
    obtain ⟨hc, hcs⟩ := not_or.mp (mt List.mem_cons.mpr h)
    rw [List.cons_append, tag?, if_neg (Ne.symm hc), ih hcs, Option.map_map]
    rfl

theorem closed_quoted {q : Char} {value : Text} (hq : q = '\'' ∨ q = '\"') (h : q ∉ value) :
    Closed (q :: value ++ [q]) := by
  intro t
  have hbracket : q ≠ '>' := by
    rintro rfl
    exact absurd hq (by decide)
  have hquote : (q = '\'' || q = '\"') = true := by simpa using hq
  rw [List.append_assoc, List.cons_append, List.singleton_append, tag?, if_neg hbracket,
    if_pos hquote, tag?_quoted h, Option.map_map]
  simp only [Function.comp_def, List.cons_append, List.append_assoc, List.nil_append]

theorem Name.closed (name : Name) : Closed name.val :=
  closed_of_notMem (name.notMem (by decide)) (name.notMem (by decide)) (name.notMem (by decide))

theorem Gap.closed (gap : Gap) : Closed gap.val :=
  closed_of_notMem (gap.notMem (by decide)) (gap.notMem (by decide)) (gap.notMem (by decide))

theorem Attribute.closed (a : Attribute) : Closed a.write := by
  have hsign : Closed ['='] := closed_of_notMem (by decide) (by decide) (by decide)
  have := ((((a.gap.closed.append a.name.closed).append a.before.closed).append hsign).append
    a.after.closed).append (closed_quoted a.isQuote a.quote_notMem)
  simpa [Attribute.write] using this

theorem Tag.closed (tag : Tag) : Closed tag.inside := by
  have hattributes : Closed (tag.attributes.flatMap Attribute.write) := by
    rw [List.flatMap_def]
    refine Closed.flatten fun p hp => ?_
    obtain ⟨a, -, rfl⟩ := List.mem_map.mp hp
    exact a.closed
  exact (tag.name.closed.append hattributes).append tag.gap.closed

theorem Closed.tag? (h : Closed p) : Xml.tag? none (p ++ '>' :: rest) = some (p, rest) := by
  rw [h, Xml.tag?, if_pos rfl]
  exact congrArg (fun a => some (a, rest)) (List.append_nil p)

theorem Attribute.getLast?_write_ne (a : Attribute) : a.write.getLast? ≠ some '/' := by
  rw [write, List.getLast?_concat]
  intro h
  have := a.isQuote
  rw [Option.some.inj h] at this
  exact absurd this (by decide)

theorem Tag.getLast?_inside_ne (tag : Tag) : tag.inside.getLast? ≠ some '/' := by
  have hattributes : ∀ attributes : List Attribute,
      (attributes.flatMap Attribute.write).getLast? ≠ some '/' := by
    intro attributes
    induction attributes with
    | nil => exact nofun
    | cons a as ih => exact List.getLast?_append_ne a.getLast?_write_ne ih
  exact List.getLast?_append_ne (List.getLast?_append_ne
    (List.getLast?_ne_of_notMem (tag.name.notMem (by decide))) (hattributes _))
    (List.getLast?_ne_of_notMem (tag.gap.notMem (by decide)))

theorem Gap.head?_isSpace (gap : Gap) : ∀ c ∈ gap.val.head?, isSpace c = true :=
  fun c hc => gap.forall_isSpace c (List.mem_of_mem_head? hc)

/-- A name ends at the space after it. -/
theorem tagName_append (name : Name) (h : ∀ c ∈ t.head?, isSpace c = true) :
    tagName (name.val ++ t) = name.val := by
  have hname : ∀ c ∈ name.val, (!isSpace c) = true := by
    intro c hc
    rw [(isNameChar_iff.mp (name.forall_isNameChar c hc)).1]
    rfl
  rw [tagName, List.takeWhile_append_of_pos hname]
  cases t with
  | nil => exact List.append_nil _
  | cons d ds =>
    rw [List.takeWhile_cons_of_neg, List.append_nil]
    rw [h d rfl]
    exact Bool.false_ne_true

theorem Tag.tagName_inside (tag : Tag) : tagName tag.inside = tag.name.val := by
  rw [inside, List.append_assoc]
  apply tagName_append
  cases tag.attributes with
  | nil => exact tag.gap.head?_isSpace
  | cons a as =>
    intro c hc
    obtain ⟨d, ds, hgap⟩ := List.exists_cons_of_ne_nil a.gap_ne_nil
    have hd := a.gap.head?_isSpace d (by rw [hgap]; rfl)
    simp only [List.flatMap_cons, Attribute.write, hgap, List.cons_append, List.head?_cons,
      Option.mem_some_iff] at hc
    rwa [← hc]

theorem startTag_inside (tag : Tag) :
    startTag opened tag.inside = (.start tag.name.val, tag.name.val :: opened) := by
  rw [startTag, if_neg tag.getLast?_inside_ne, tag.tagName_inside]

theorem startTag_slash (tag : Tag) :
    startTag opened (tag.inside ++ ['/']) = (.empty tag.name.val, opened) := by
  rw [startTag, List.getLast?_concat, if_pos rfl, List.dropLast_concat, tag.tagName_inside]

theorem stopName_append (name : Name) (gap : Gap) : stopName (name.val ++ gap.val) = name.val := by
  have hname : name.val.dropEndWhile isSpace = name.val := by
    rw [Text.dropEndWhile_eq_rdropWhile, List.rdropWhile_eq_self_iff]
    intro hne
    rw [(isNameChar_iff.mp (name.forall_isNameChar _ (List.getLast_mem hne))).1]
    exact Bool.false_ne_true
  have hdrop : (name.val ++ gap.val).dropEndWhile isSpace = name.val := by
    rw [Text.dropEndWhile_eq_rdropWhile, List.rdropWhile, List.reverse_append,
      List.dropWhile_append_of_pos fun c hc => gap.forall_isSpace c (List.mem_reverse.mp hc)]
    rwa [Text.dropEndWhile_eq_rdropWhile] at hname
  rw [stopName, hdrop]
  split
  · rename_i hnil
    exact absurd hnil name.property.1
  · rfl

theorem markup?_of_head (h : ∀ c ∈ t.head?, c ∉ ['!', '?', '/']) :
    markup? opened t = (tag? none t).map fun r =>
      ((startTag opened r.1).1, (startTag opened r.1).2, r.2) := by
  rw [markup?.eq_def]
  split
  · exact absurd (by decide) (h '!' rfl)
  · exact absurd (by decide) (h '?' rfl)
  · exact absurd (by decide) (h '/' rfl)
  · rfl

theorem Tag.head?_inside (tag : Tag) : ∀ c ∈ (tag.inside ++ t).head?, c ∉ ['!', '?', '/'] := by
  intro c hc hbad
  obtain ⟨d, ds, hname⟩ := List.exists_cons_of_ne_nil tag.name.property.1
  simp only [inside, hname, List.cons_append, List.head?_cons, Option.mem_some_iff] at hc
  subst hc
  have hd := (isNameChar_iff.mp (tag.name.forall_isNameChar d (hname ▸ List.mem_cons_self))).2
  simp only [List.mem_cons, List.not_mem_nil, or_false] at hd hbad
  tauto

theorem markup?_start (tag : Tag) : markup? opened (tag.inside ++ '>' :: rest) =
    some (.start tag.name.val, tag.name.val :: opened, rest) := by
  rw [markup?_of_head tag.head?_inside, tag.closed.tag?, Option.map_some, startTag_inside]

theorem markup?_empty (tag : Tag) : markup? opened (tag.inside ++ "/>".toList ++ rest) =
    some (.empty tag.name.val, opened, rest) := by
  have hclosed : Closed (tag.inside ++ ['/']) := tag.closed.append
    (closed_of_notMem (by decide) (by decide) (by decide))
  have htag : tag? none (tag.inside ++ "/>".toList ++ rest) = some (tag.inside ++ ['/'], rest) := by
    rw [← hclosed.tag?]
    simp
  rw [List.append_assoc, markup?_of_head tag.head?_inside, ← List.append_assoc, htag,
    Option.map_some, startTag_slash]

theorem markup?_stop (name : Name) (gap : Gap) :
    markup? (name.val :: opened) ('/' :: name.val ++ gap.val ++ '>' :: rest) =
      some (.stop name.val, opened, rest) := by
  have hslash : Closed ['/'] := closed_of_notMem (by decide) (by decide) (by decide)
  have hclosed : Closed ('/' :: name.val ++ gap.val) :=
    (hslash.append name.closed).append gap.closed
  rw [List.cons_append, List.cons_append, markup?, ← List.cons_append, ← List.cons_append,
    hclosed.tag?, Option.map_some]
  simp only [List.cons_append, List.drop_succ_cons, List.drop_zero, stopTag, stopName_append,
    if_true]

theorem markup?_declaration : markup? opened ('!' :: t) =
    (declaration? ('!' :: t)).map fun r => (r.1, opened, r.2) := rfl

theorem markup?_cdata {body : Text} (h : ¬ "]]>".toList <:+: body) :
    markup? opened ("![CDATA[".toList ++ body ++ "]]>".toList ++ rest) =
      some (.cdata body, opened, rest) := by
  have hlit : "![CDATA[".toList = '!' :: '[' :: "CDATA[".toList := rfl
  have hup := upTo?_cdata rest h
  have hread : Text.after? "![CDATA[".toList ('!' :: '[' :: ("CDATA[".toList ++ body ++ "]]".toList)) =
      some (body ++ "]]".toList) := Text.after?_eq_some_iff.mpr (by simp)
  have hbody : (body ++ "]]".toList).dropLast.dropLast = body := by
    rw [show body ++ "]]".toList = body ++ [']'] ++ [']'] by simp, List.dropLast_concat,
      List.dropLast_concat]
  rw [hlit] at hup ⊢
  simp only [List.cons_append] at hup ⊢
  rw [markup?_declaration, declaration?, hup, Option.map_some, Option.map_some]
  dsimp only
  rw [hread]
  exact congrArg (fun b => some (Event.cdata b, opened, rest)) hbody

theorem markup?_comment {body : Text} (h : ¬ "--".toList <:+: body) :
    markup? opened ("!--".toList ++ body ++ "-->".toList ++ rest) = some (.aside, opened, rest) := by
  have hup := upTo?_comment rest h
  rw [show "!--".toList = '!' :: '-' :: ['-'] from rfl] at hup ⊢
  simp only [List.cons_append] at hup ⊢
  rw [markup?_declaration, declaration?, hup, Option.map_some, Option.map_some]
  rfl

theorem markup?_instruction {body : Text} (h : ¬ "?>".toList <:+: '?' :: body) :
    markup? opened ('?' :: body ++ "?>".toList ++ rest) = some (.aside, opened, rest) := by
  have hup := upTo?_instruction rest h
  simp only [List.cons_append] at hup ⊢
  rw [markup?, instruction?, hup, Option.map_some, Option.map_some]
  simp

theorem doctype_append {body : Text} (hb : body.any (!isSpace ·) = true) :
    doctype ("!DOCTYPE".toList ++ body) = .aside := by
  have hlen : "!DOCTYPE".toList.length = 8 := by simp
  have htake : ("!DOCTYPE".toList ++ body).take 8 = "!DOCTYPE".toList := List.take_left' hlen
  have hdrop : ("!DOCTYPE".toList ++ body).drop 8 = body := List.drop_left' hlen
  unfold doctype
  rw [htake, hdrop, hb, Text.asciiLower, Bool.and_true]
  exact if_pos (decide_eq_true rfl)

theorem markup?_doctype {body : Text} (h : nested 0 body = true)
    (hb : body.any (!isSpace ·) = true) :
    markup? opened ("!DOCTYPE".toList ++ body ++ ['>'] ++ rest) = some (.aside, opened, rest) := by
  have hlit : "!DOCTYPE".toList = '!' :: 'D' :: "OCTYPE".toList := rfl
  have hup : upTo? endsDoctype [] ("!DOCTYPE".toList ++ body ++ ['>'] ++ rest) =
      some ("!DOCTYPE".toList ++ body, rest) := by
    rw [List.append_assoc, List.append_assoc, upTo?_append_of_notMem (by simp),
      List.singleton_append, upTo?_nested h (by simp), List.append_nil, List.reverse_reverse]
  have hread := doctype_append hb
  rw [hlit] at hup hread ⊢
  simp only [List.cons_append] at hup hread ⊢
  rw [markup?_declaration, declaration?, if_pos (by decide), hup, Option.map_some, Option.map_some]
  · simp only [hread]
  · decide
  · decide

/-- A reader steps over the markup, and keeps the same elements open. -/
theorem markup?_item (i : Item) :
    markup? opened (i.inside ++ rest) = some (i.event, opened, rest) := by
  cases i with
  | cdata body h => exact markup?_cdata h
  | comment body h => exact markup?_comment h
  | instruction body h => exact markup?_instruction h
  | doctype body h hb => exact markup?_doctype h hb
  | empty tag => exact markup?_empty tag

theorem eventsFrom_markup {e : Event} (h : markup? opened t = some (e, names, rest))
    (he : e ≠ .malformed) : eventsFrom opened ('<' :: t) = e :: eventsFrom names rest := by
  rw [eventsFrom]
  split
  · rename_i heq
    rw [h] at heq
    cases heq
  · rename_i heq
    rw [h] at heq
    cases heq
    exact absurd rfl he
  · rename_i heq
    rw [h] at heq
    cases heq
    rfl

/-- A text ends where the text is empty or markup begins. -/
def Opens (t : Text) : Prop := ∀ c ∈ t.head?, c = '<'

theorem Letter.write_ne_nil (l : Letter) : l.write ≠ [] := by
  cases l <;> exact List.cons_ne_nil _ _

theorem Letter.notMem_write (l : Letter) : '<' ∉ l.write := by
  cases l with
  | plain c h => exact fun hc => h.1 (List.mem_singleton.mp hc).symm
  | named name c h =>
    have hall : ∀ p ∈ predefined, '<' ∉ '&' :: p.1 ++ [';'] := by decide
    exact hall _ h
  | decimal digits c h => simpa [write] using notMem_digits h (by decide)
  | hex digits c h => simpa [write] using notMem_digits h (by decide)
  | entity name => simpa [write] using name.notMem (by decide)

theorem eventsFrom_text (ht : t ≠ []) (hmem : '<' ∉ t) (hrest : Opens rest) :
    eventsFrom opened (t ++ rest) = .text t :: eventsFrom opened rest := by
  obtain ⟨c, cs, rfl⟩ := List.exists_cons_of_ne_nil ht
  obtain ⟨hc, hcs⟩ := not_or.mp (mt List.mem_cons.mpr hmem)
  have hall : ∀ d ∈ cs, decide (d ≠ '<') = true := by
    intro d hd
    rw [decide_eq_true_eq]
    rintro rfl
    exact hcs hd
  have htake : (cs ++ rest).takeWhile (· ≠ '<') = cs := by
    rw [List.takeWhile_append_of_pos hall]
    cases rest with
    | nil => exact List.append_nil cs
    | cons d ds => rw [hrest d rfl, List.takeWhile_cons_of_neg (by decide), List.append_nil]
  have hdrop : (cs ++ rest).dropWhile (· ≠ '<') = rest := by
    rw [List.dropWhile_append_of_pos hall]
    cases rest with
    | nil => rfl
    | cons d ds => rw [hrest d rfl, List.dropWhile_cons_of_neg (by decide)]
  rw [List.cons_append, eventsFrom, htake, hdrop]
  exact fun heq => hc heq.symm

theorem eventsFrom_writeText (ls : List Letter) (hrest : Opens rest) :
    eventsFrom opened (writeText ls ++ rest) = textEvents ls ++ eventsFrom opened rest := by
  cases ls with
  | nil => rfl
  | cons l ls =>
    refine eventsFrom_text ?_ ?_ hrest
    · exact List.append_ne_nil_of_left_ne_nil l.write_ne_nil _
    · intro hmem
      obtain ⟨l', -, hl'⟩ := List.mem_flatMap.mp hmem
      exact l'.notMem_write hl'

theorem eventsFrom_item (i : Item) :
    eventsFrom opened (i.write ++ rest) = i.event :: eventsFrom opened rest :=
  eventsFrom_markup (markup?_item i) (by cases i <;> exact Event.noConfusion)

theorem eventsFrom_start (tag : Tag) : eventsFrom opened (tag.start ++ rest) =
    .start tag.name.val :: eventsFrom (tag.name.val :: opened) rest := by
  rw [Tag.start, List.append_assoc]
  exact eventsFrom_markup (markup?_start tag) Event.noConfusion

theorem eventsFrom_stop (tag : Tag) (gap : Gap) :
    eventsFrom (tag.name.val :: opened) (tag.stop gap ++ rest) =
      .stop tag.name.val :: eventsFrom opened rest := by
  rw [Tag.stop, List.append_assoc]
  exact eventsFrom_markup (markup?_stop tag.name gap) Event.noConfusion

theorem opens_item (i : Item) : Opens (i.write ++ rest) := fun _ hc => (Option.some.inj hc).symm

theorem opens_start (tag : Tag) : Opens (tag.start ++ rest) :=
  fun _ hc => (Option.some.inj hc).symm

theorem opens_stop (tag : Tag) (gap : Gap) : Opens (tag.stop gap ++ rest) :=
  fun _ hc => (Option.some.inj hc).symm

/-- The events of what is written are those of the tree, whatever markup follows. -/
theorem eventsFrom_write (c : Content) (hrest : Opens rest) :
    eventsFrom opened (c.write ++ rest) = c.events ++ eventsFrom opened rest := by
  induction c generalizing opened rest with
  | text ls => exact eventsFrom_writeText ls hrest
  | item ls i more ih =>
    rw [Content.write, Content.events, List.append_assoc, List.append_assoc,
      eventsFrom_writeText ls (opens_item i), eventsFrom_item, ih hrest, List.append_assoc]
    rfl
  | element ls tag inner gap more ihinner ihmore =>
    rw [Content.write, Content.events]
    simp only [List.append_assoc]
    rw [eventsFrom_writeText ls (opens_start tag), eventsFrom_start,
      ihinner (opens_stop tag gap), eventsFrom_stop, ihmore hrest]
    simp only [List.cons_append]

/-- An element is read to its end, whatever follows. -/
theorem eventsFrom_element (ls : List Letter) (tag : Tag) (inner : Content) (gap : Gap) :
    eventsFrom opened (writeText ls ++ tag.start ++ inner.write ++ tag.stop gap ++ rest) =
      textEvents ls ++ .start tag.name.val ::
        (inner.events ++ .stop tag.name.val :: eventsFrom opened rest) := by
  simp only [List.append_assoc]
  rw [eventsFrom_writeText ls (opens_start tag), eventsFrom_start,
    eventsFrom_write inner (opens_stop tag gap), eventsFrom_stop]

theorem events_of_head?_ne (h : t.head? ≠ some '\uFEFF') : events t = eventsFrom [] t := by
  rw [events.eq_def]
  split
  · exact absurd rfl h
  · rfl

/-- A mark in front of a text leaves no event. -/
theorem events_mark (d : Document) (h : t.head? ≠ some '\uFEFF') :
    events (d.mark ++ t) = eventsFrom [] t := by
  rw [Document.mark]
  split
  · rw [List.singleton_append, events]
  · exact events_of_head?_ne h

/-- The events of a document are those of its tree. -/
theorem events_write (d : Document) : events d.write = d.content.events := by
  have hcontent : eventsFrom [] (d.content.write ++ []) = d.content.events ++ eventsFrom [] [] :=
    eventsFrom_write d.content (fun _ hc => nomatch hc)
  rw [List.append_nil, eventsFrom, List.append_nil] at hcontent
  rw [Document.write, events_mark d d.head?_ne, hcontent]

end CleanCopy.Xml
