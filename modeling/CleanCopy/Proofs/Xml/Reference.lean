import CleanCopy.Proofs.Text.Lists
import CleanCopy.Proofs.Xml.Tree

namespace CleanCopy.Xml

variable {base : Nat} {digits name rest t : Text} {c : Char}

/-- A number is written in digits and nothing else. -/
theorem isSome_digit?_of_number? {n : Nat} (h : number? base digits = some n) :
    ∀ d ∈ digits, (digit? base d).isSome = true := by
  cases digits with
  | nil => cases h
  | cons d ds =>
    intro x hx
    obtain ⟨m, hm⟩ := List.exists_isSome_of_foldlM
      (f := fun n c => (digit? base c).map (base * n + ·)) h x hx
    rwa [Option.isSome_map] at hm

theorem notMem_digits {n : Nat} (h : number? base digits = some n) (hc : digit? base c = none) :
    c ∉ digits := by
  intro hmem
  have := isSome_digit?_of_number? h c hmem
  rw [hc] at this
  cases this

theorem charOf?_toNat (hc : c ≠ '\x00') : charOf? c.toNat = some c := by
  have hvalid : c.toNat < 0xD800 ∨ 0xDFFF < c.toNat ∧ c.toNat < 0x110000 := c.valid
  have hzero : c.toNat ≠ 0 := fun h => hc (Char.toNat_inj.mp h)
  rw [charOf?, if_pos ⟨hzero, by omega⟩, Char.ofNat_toNat]

theorem resolve?_decimal (h : number? 10 digits = some c.toNat) (hc : c ≠ '\x00') :
    resolve? ('#' :: digits) = some c := by
  rw [resolve?.eq_def]
  split
  · rename_i heq
    obtain rfl := (List.cons.inj heq).2
    exact absurd List.mem_cons_self (notMem_digits h (by decide))
  · rename_i heq
    obtain rfl := (List.cons.inj heq).2
    rw [h]
    exact charOf?_toNat hc
  all_goals simp_all

theorem resolve?_hex (h : number? 16 digits = some c.toNat) (hc : c ≠ '\x00') :
    resolve? ('#' :: 'x' :: digits) = some c := by
  rw [resolve?, h]
  exact charOf?_toNat hc

theorem resolve?_predefined (h : (name, c) ∈ predefined) : resolve? name = some c := by
  revert h
  simp only [predefined, List.mem_cons, List.not_mem_nil, or_false, Prod.mk.injEq]
  rintro (⟨rfl, rfl⟩ | ⟨rfl, rfl⟩ | ⟨rfl, rfl⟩ | ⟨rfl, rfl⟩ | ⟨rfl, rfl⟩) <;> rfl

/-- Within a reference the letters are gathered up to the semicolon. -/
theorem unescapeFrom_letters (acc : Text) (hamp : '&' ∉ name) (hsemi : ';' ∉ name) :
    unescapeFrom (some acc) (name ++ ';' :: rest) =
      (resolve? (acc.reverse ++ name)).bind fun d => (unescapeFrom none rest).map (d :: ·) := by
  induction name generalizing acc with
  | nil =>
    rw [List.nil_append, List.append_nil, unescapeFrom, if_neg (by decide), if_pos rfl]
    cases resolve? acc.reverse <;> rfl
  | cons d ds ih =>
    obtain ⟨hd, hds⟩ := not_or.mp (mt List.mem_cons.mpr hamp)
    obtain ⟨hd', hds'⟩ := not_or.mp (mt List.mem_cons.mpr hsemi)
    rw [List.cons_append, unescapeFrom, if_neg (Ne.symm hd), if_neg (Ne.symm hd'), ih _ hds hds',
      List.reverse_cons, List.append_assoc, List.singleton_append]

theorem unescapeFrom_reference (hamp : '&' ∉ name) (hsemi : ';' ∉ name)
    (hr : resolve? name = some c) :
    unescapeFrom none ('&' :: name ++ [';'] ++ rest) = (unescapeFrom none rest).map (c :: ·) := by
  rw [List.append_assoc, List.cons_append, unescapeFrom, if_pos rfl, List.singleton_append,
    unescapeFrom_letters [] hamp hsemi, List.reverse_nil, List.nil_append, hr, Option.bind_some]

/-- One letter is read back as the character it stands for. -/
theorem Letter.unescapeFrom_write {l : Letter} (h : l.char? = some c) :
    unescapeFrom none (l.write ++ rest) = (unescapeFrom none rest).map (c :: ·) := by
  cases l with
  | plain d hd =>
    obtain rfl := Option.some.inj h
    rw [write, List.singleton_append, unescapeFrom, if_neg hd.2]
  | named name d hd =>
    obtain rfl := Option.some.inj h
    have hall : ∀ p ∈ predefined, '&' ∉ p.1 ∧ ';' ∉ p.1 := by decide
    exact unescapeFrom_reference (hall _ hd).1 (hall _ hd).2 (resolve?_predefined hd)
  | decimal digits d hd hne =>
    obtain rfl := Option.some.inj h
    have hamp : '&' ∉ '#' :: digits := by simpa using notMem_digits hd (by decide)
    have hsemi : ';' ∉ '#' :: digits := by simpa using notMem_digits hd (by decide)
    exact unescapeFrom_reference hamp hsemi (resolve?_decimal hd hne)
  | hex digits d hd hne =>
    obtain rfl := Option.some.inj h
    have hamp : '&' ∉ '#' :: 'x' :: digits := by simpa using notMem_digits hd (by decide)
    have hsemi : ';' ∉ '#' :: 'x' :: digits := by simpa using notMem_digits hd (by decide)
    exact unescapeFrom_reference hamp hsemi (resolve?_hex hd hne)
  | entity name => cases h

/-- A text that names no entity is read back as its characters. -/
theorem unescape?_writeText {ls : List Letter} (h : ∀ l ∈ ls, l.char?.isSome = true) :
    unescape? (writeText ls) = some (textValue ls) := by
  induction ls with
  | nil => rfl
  | cons l ls ih =>
    obtain ⟨hl, hls⟩ := List.forall_mem_cons.mp h
    obtain ⟨c, hc⟩ := Option.isSome_iff_exists.mp hl
    rw [writeText, List.flatMap_cons, unescape?, Letter.unescapeFrom_write hc, textValue,
      List.filterMap_cons_some hc]
    exact congrArg (Option.map (c :: ·)) (ih hls)

end CleanCopy.Xml
