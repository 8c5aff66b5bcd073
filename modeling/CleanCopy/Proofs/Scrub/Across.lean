import CleanCopy.Proofs.Scrub.Block

namespace CleanCopy.Text

open Piece

/-- A delimiter that stands within one line. -/
structure Inline (s : Text) : Prop where
  ne_nil : s ≠ []
  no_return : '\r' ∉ s
  no_feed : '\n' ∉ s

instance (s : Text) : Decidable s.Inline :=
  decidable_of_iff (s ≠ [] ∧ '\r' ∉ s ∧ '\n' ∉ s)
    ⟨fun ⟨hne, hr, hf⟩ => ⟨hne, hr, hf⟩, fun h => ⟨h.ne_nil, h.no_return, h.no_feed⟩⟩

/-- What stands between the text of a line and the text behind the line. -/
structure LineEnd (v t : Text) : Prop where
  breaks : ∀ c ∈ v, c = '\r' ∨ c = '\n'
  last : v = [] → t = []

/-- The spans of the comments in a text that begins within one; that one began at `start`. -/
def openSpans (opener closer : Text) (start offset : Nat) (t : Text) : List Span :=
  match cut? closer t with
  | none => [⟨start, offset + t.byteSize⟩]
  | some (body, rest) =>
    let stop := offset + body.byteSize + closer.byteSize
    ⟨start, stop⟩ :: blockSpans opener closer (fun _ => false) stop rest

/-- The spans of the comments in what follows a line; `within` tells that one is open there. -/
def spansBehind (opener closer : Text) (within : Bool) (start offset : Nat) (t : Text) : List Span :=
  if within then openSpans opener closer start offset t
  else blockSpans opener closer (fun _ => false) offset t

/-- Whether the last comment of a text is not closed. -/
def leavesOpen (opener closer t : Text) : Bool :=
  match cut? opener t with
  | none => false
  | some (_, inside) =>
    match cut? closer inside with
    | none => true
    | some (_, rest) => if rest.length < t.length then leavesOpen opener closer rest else false
  termination_by t.length

variable {opener closer before inside body rest s t u v : Text} {start offset : Nat}
  {keep : Text → Bool}

theorem Inline.cut?_append (hs : s.Inline) (h : cut? s u = none) (hv : LineEnd v t) :
    cut? s (u ++ (v ++ t)) = (cut? s t).map fun (a, b) => (u ++ v ++ a, b) := by
  have hbreak : ∀ c ∈ v, c ∉ s := by
    intro c hc hm
    rcases hv.breaks c hc with rfl | rfl
    · exact hs.no_return hm
    · exact hs.no_feed hm
  have hhead : ∀ c, (v ++ t).head? = some c → c ∉ s := by
    intro c hc
    cases v with
    | nil =>
      rw [hv.last rfl] at hc
      cases hc
    | cons d ds => exact hbreak c (List.mem_of_mem_head? hc)
  rw [cut?_append_of_none h hhead, cut?_append_of_apart hs.ne_nil hbreak, Option.map_map]
  refine congrArg (Option.map · _) (funext fun p => ?_)
  exact congrArg (·, p.2) (List.append_assoc ..).symm

theorem byteSize_of_cut? (h : cut? s t = some (u, v)) :
    t.byteSize = u.byteSize + s.byteSize + v.byteSize := by
  rw [← cut?_append h, byteSize_append, byteSize_append]

theorem length_lt_of_cut? (ho : opener ≠ []) (h : cut? opener t = some (before, inside))
    (h' : cut? closer inside = some (body, rest)) : rest.length < t.length := by
  have hpos := List.length_pos_iff.mpr ho
  rw [← append_comment h h']
  simp only [List.length_append]
  omega

theorem blockSpans_of_none (h : cut? opener t = none) :
    blockSpans opener closer keep offset t = [] := by
  rw [blockSpans, h]

theorem blockSpans_of_some (ho : opener ≠ []) (h : cut? opener t = some (before, inside)) :
    blockSpans opener closer (fun _ => false) offset t = openSpans opener closer
      (offset + before.byteSize) (offset + before.byteSize + opener.byteSize) inside := by
  rw [blockSpans, h, openSpans]
  dsimp only
  cases h' : cut? closer inside with
  | none => rfl
  | some p =>
    have hlt := length_lt_of_cut? ho h h'
    simp only [hlt, if_true, Bool.false_eq_true, if_false]

theorem openSpans_of_none (h : cut? closer t = none) :
    openSpans opener closer start offset t = [⟨start, offset + t.byteSize⟩] := by
  rw [openSpans, h]

theorem openSpans_of_some (h : cut? closer t = some (body, rest)) :
    openSpans opener closer start offset t =
      ⟨start, offset + body.byteSize + closer.byteSize⟩ ::
        blockSpans opener closer (fun _ => false) (offset + body.byteSize + closer.byteSize) rest := by
  rw [openSpans, h]

/-- Without an opener up to a place, the spans are those behind it. -/
theorem blockSpans_shift (ho : opener ≠ [])
    (h : cut? opener (s ++ t) = (cut? opener t).map fun (a, b) => (s ++ a, b)) :
    blockSpans opener closer (fun _ => false) offset (s ++ t) =
      blockSpans opener closer (fun _ => false) (offset + s.byteSize) t := by
  cases ht : cut? opener t with
  | none =>
    rw [ht] at h
    rw [blockSpans_of_none ht, blockSpans_of_none h]
  | some p =>
    rw [ht] at h
    rw [blockSpans_of_some ho ht, blockSpans_of_some ho h, byteSize_append, ← Nat.add_assoc offset]

theorem openSpans_shift
    (h : cut? closer (s ++ t) = (cut? closer t).map fun (a, b) => (s ++ a, b)) :
    openSpans opener closer start offset (s ++ t) =
      openSpans opener closer start (offset + s.byteSize) t := by
  cases ht : cut? closer t with
  | none =>
    rw [ht] at h
    rw [openSpans_of_none ht, openSpans_of_none h, byteSize_append, Nat.add_assoc]
  | some p =>
    rw [ht] at h
    rw [openSpans_of_some ht, openSpans_of_some h, byteSize_append, ← Nat.add_assoc offset]

theorem bounds_of_mem_blockSpans (ho : opener ≠ []) {p : Span}
    (h : p ∈ blockSpans opener closer keep offset t) :
    offset ≤ p.start ∧ p.start < p.stop ∧ p.stop ≤ offset + t.byteSize := by
  have hpos := byteSize_pos ho
  refine ⟨le_start_of_mem_blockSpans h, ?_⟩
  fun_induction blockSpans opener closer keep offset t with
  | case1 | case2 | case6 => cases h
  | case3 offset t before inside hcut start bodyStart _ _ =>
    obtain rfl := List.mem_singleton.mp h
    have hsize := byteSize_of_cut? hcut
    simp only [bodyStart, start]
    omega
  | case4 offset t before inside hcut start bodyStart body rest hcut' stop _ _ ih =>
    have hsize := byteSize_of_cut? hcut
    have hsize' := byteSize_of_cut? hcut'
    have := ih h
    omega
  | case5 offset t before inside hcut start bodyStart body rest hcut' stop _ _ ih =>
    have hsize := byteSize_of_cut? hcut
    have hsize' := byteSize_of_cut? hcut'
    rcases List.mem_cons.mp h with rfl | h
    · simp only [stop, bodyStart, start]
      omega
    · have := ih h
      omega

/-- The spans of a line and of what follows it: where the line leaves a comment open, the last span
goes on behind it. -/
theorem exists_blockSpans_append (ho : opener.Inline) (hc : closer.Inline) (hv : LineEnd v t)
    (offset : Nat) (u : Text) : ∃ pre start,
      blockSpans opener closer (fun _ => false) offset u = pre ++
        (if leavesOpen opener closer u then [⟨start, offset + u.byteSize⟩] else []) ∧
      blockSpans opener closer (fun _ => false) offset (u ++ (v ++ t)) = pre ++
        spansBehind opener closer (leavesOpen opener closer u) start
          (offset + u.byteSize + v.byteSize) t := by
  -- No delimiter reaches over the line end, so that a search that fails in the line goes on behind it.
  fun_induction leavesOpen opener closer u generalizing offset with
  | case1 u h =>
    have hshift := ho.cut?_append h hv
    rw [← List.append_assoc] at hshift ⊢
    refine ⟨[], 0, blockSpans_of_none h, ?_⟩
    rw [blockSpans_shift ho.ne_nil hshift, byteSize_append, Nat.add_assoc]
    rfl
  | case2 u before inside h h' =>
    have hshift := hc.cut?_append h' hv
    rw [← List.append_assoc] at hshift
    refine ⟨[], offset + before.byteSize, ?_, ?_⟩
    · rw [blockSpans_of_some ho.ne_nil h, openSpans_of_none h', byteSize_of_cut? h]
      simp only [if_true, List.nil_append, Nat.add_assoc]
    · rw [blockSpans_of_some ho.ne_nil (cut?_append_of_some h _), ← List.append_assoc inside,
        openSpans_shift hshift, byteSize_of_cut? h, spansBehind, if_pos rfl]
      simp only [byteSize_append, List.nil_append, Nat.add_assoc]
  | case3 u before inside h body rest h' hlt ih =>
    set stop := offset + before.byteSize + opener.byteSize + body.byteSize + closer.byteSize
    have hsize : stop + rest.byteSize = offset + u.byteSize := by
      rw [byteSize_of_cut? h, byteSize_of_cut? h']
      omega
    obtain ⟨pre, start, hline, hall⟩ := ih stop
    rw [hsize] at hline hall
    refine ⟨⟨offset + before.byteSize, stop⟩ :: pre, start, ?_, ?_⟩
    · rw [blockSpans_of_some ho.ne_nil h, openSpans_of_some h', hline]
      rfl
    · rw [blockSpans_of_some ho.ne_nil (cut?_append_of_some h _),
        openSpans_of_some (cut?_append_of_some h' _), hall]
      rfl
  | case4 u before inside h body rest h' hlt => exact absurd (length_lt_of_cut? ho.ne_nil h h') hlt

theorem exists_openSpans (hc : closer ≠ []) (opener : Text) (start offset : Nat) (t : Text) :
    ∃ stop spans,
    openSpans opener closer start offset t = ⟨start, stop⟩ :: spans ∧ offset ≤ stop ∧
      (t ≠ [] → offset < stop) ∧ ∀ p ∈ spans, stop ≤ p.start := by
  cases h : cut? closer t with
  | none =>
    refine ⟨offset + t.byteSize, [], openSpans_of_none h, Nat.le_add_right .., fun ht => ?_, nofun⟩
    exact Nat.lt_add_of_pos_right (byteSize_pos ht)
  | some p =>
    have hpos := byteSize_pos hc
    refine ⟨_, _, openSpans_of_some h, by omega, fun _ => by omega, fun q hq => ?_⟩
    exact le_start_of_mem_blockSpans hq

theorem any_covers_spansBehind (hc : closer ≠ []) (within : Bool) {n : Nat} (hn : n < offset) :
    (spansBehind opener closer within start offset t).any (·.covers n) =
      (within && decide (start ≤ n)) := by
  have hnone {spans : List Span} (h : ∀ p ∈ spans, offset ≤ p.start) :
      spans.any (·.covers n) = false := by
    simp only [List.any_eq_false, Span.covers, Bool.and_eq_true, decide_eq_true_eq]
    intro p hp
    have := h p hp
    omega
  cases within with
  | false => exact hnone fun p hp => le_start_of_mem_blockSpans hp
  | true =>
    obtain ⟨stop, spans, hspans, hstop, -, hlater⟩ := exists_openSpans hc opener start offset t
    rw [spansBehind, if_pos rfl, hspans, List.any_cons, hnone fun p hp => hstop.trans (hlater p hp),
      Bool.or_false, Span.covers, decide_eq_true (Nat.lt_of_lt_of_le hn hstop), Bool.and_true,
      Bool.true_and]

/-- A line that begins in code loses what it would lose by itself. -/
theorem outside_blockSpans_append (ho : opener.Inline) (hc : closer.Inline) (hv : LineEnd v t)
    (offset : Nat) (u : Text) :
    outside (blockSpans opener closer (fun _ => false) offset (u ++ (v ++ t))) offset u =
      wording (without .plain (blockPieces opener closer (fun _ => false) u)) := by
  obtain ⟨pre, start, hline, hall⟩ := exists_blockSpans_append ho hc hv offset u
  rw [← outside_blockSpans opener closer _ offset u, hall, hline]
  refine outside_congr fun n hn => ?_
  rw [List.any_append, List.any_append, any_covers_spansBehind hc.ne_nil _ (by omega)]
  cases leavesOpen opener closer u with
  | false => rfl
  | true => simp [Span.covers, hn]

/-- A line that begins in code is touched just if it would be by itself. -/
theorem any_touches_blockSpans_append (ho : opener.Inline) (hc : closer.Inline)
    (hv : LineEnd v t) (offset : Nat) (u : Text) :
    (blockSpans opener closer (fun _ => false) offset (u ++ (v ++ t))).any
        (·.touches offset u.byteSize) =
      !(blockSpans opener closer (fun _ => false) offset u).isEmpty := by
  obtain ⟨pre, start, hline, hall⟩ := exists_blockSpans_append ho hc hv offset u
  have hbounds {p : Span} (hp : p ∈ blockSpans opener closer (fun _ => false) offset u) :=
    bounds_of_mem_blockSpans ho.ne_nil hp
  rw [hall, List.any_append, hline]
  cases pre with
  | cons p ps =>
    have hp : p ∈ blockSpans opener closer (fun _ => false) offset u := by
      rw [hline]
      exact List.mem_cons_self
    have := hbounds hp
    have htouch : p.touches offset u.byteSize = true := by
      simp only [Span.touches, Bool.and_eq_true, decide_eq_true_eq]
      omega
    rw [List.any_cons, htouch]
    rfl
  | nil =>
    cases hopen : leavesOpen opener closer u with
    | true =>
      obtain ⟨stop, spans, hspans, hstop, -⟩ :=
        exists_openSpans hc.ne_nil opener start (offset + u.byteSize + v.byteSize) t
      have hp : ⟨start, offset + u.byteSize⟩ ∈
          blockSpans opener closer (fun _ => false) offset u := by
        rw [hline, hopen]
        exact List.mem_singleton_self _
      have hstart : offset ≤ start ∧ start < offset + u.byteSize :=
        ⟨(hbounds hp).1, (hbounds hp).2.1⟩
      have htouch : Span.touches ⟨start, stop⟩ offset u.byteSize = true := by
        simp only [Span.touches, Bool.and_eq_true, decide_eq_true_eq]
        omega
      rw [spansBehind, if_pos rfl, hspans, List.any_cons, htouch]
      rfl
    | false =>
      refine List.any_eq_false.mpr fun p hp => ?_
      -- An empty line counts as one byte, which is that of its end, and spans behind it begin later.
      cases v with
      | nil =>
        rw [hv.last rfl, spansBehind, if_neg Bool.false_ne_true,
          blockSpans_of_none (cut?_nil ho.ne_nil)] at hp
        cases hp
      | cons c cs =>
        have hstart := le_start_of_mem_blockSpans (show p ∈ blockSpans _ _ _ _ _ from hp)
        have hsize := byteSize_pos (List.cons_ne_nil c cs)
        simp only [Span.touches, Bool.and_eq_true, decide_eq_true_eq]
        omega

/-- The comments of a line and the code around them; `within` tells that it begins in a comment. -/
def linePieces (opener closer : Text) (within : Bool) (u : Text) : List Piece :=
  if within then
    match cut? closer u with
    | none => [.comment .plain u]
    | some (body, rest) =>
      .comment .plain (body ++ closer) :: blockPieces opener closer (fun _ => false) rest
  else blockPieces opener closer (fun _ => false) u

def lineOpen (opener closer : Text) (within : Bool) (u : Text) : Bool :=
  if within then
    match cut? closer u with
    | none => true
    | some (_, rest) => leavesOpen opener closer rest
  else leavesOpen opener closer u

/-- The spans of a line that begins within a comment and of what follows it. -/
structure Cuts (opener closer : Text) (spans : List Span) (within : Bool) (offset : Nat)
    (u v t : Text) : Prop where
  kept : outside spans offset u = wording (without .plain (linePieces opener closer within u))
  touched : spans.any (·.touches offset u.byteSize) =
    (linePieces opener closer within u).any (·.isComment .plain)
  behind : ∃ pre start, spans = pre ++ spansBehind opener closer (lineOpen opener closer within u)
    start (offset + u.byteSize + v.byteSize) t ∧
    (∀ p ∈ pre, p.stop ≤ offset + u.byteSize) ∧
    (lineOpen opener closer within u = true → start ≤ offset + u.byteSize)

theorem any_isComment_blockPieces (offset : Nat) (u : Text) :
    (blockPieces opener closer keep u).any (·.isComment .plain) =
      !(blockSpans opener closer keep offset u).isEmpty := by
  have hiff := blockSpans_eq_nil_iff opener closer keep offset u
  rw [← List.isEmpty_iff, lacks_iff_any] at hiff
  rw [Bool.eq_iff_iff, ← not_iff_not, Bool.not_eq_true, ← hiff, Bool.not_eq_true',
    Bool.not_eq_false]

theorem cuts_code (ho : opener.Inline) (hc : closer.Inline) (hv : LineEnd v t) (offset : Nat)
    (u : Text) : Cuts opener closer
      (blockSpans opener closer (fun _ => false) offset (u ++ (v ++ t))) false offset u v t where
  kept := outside_blockSpans_append ho hc hv offset u
  touched := by
    rw [any_touches_blockSpans_append ho hc hv]
    exact (any_isComment_blockPieces offset u).symm
  behind := by
    obtain ⟨pre, start, hline, hall⟩ := exists_blockSpans_append ho hc hv offset u
    have hbounds {p : Span} (hp : p ∈ blockSpans opener closer (fun _ => false) offset u) :=
      bounds_of_mem_blockSpans ho.ne_nil hp
    refine ⟨pre, start, hall, fun p hp => ?_, fun hopen => ?_⟩
    · exact (hbounds (hline ▸ List.mem_append_left _ hp)).2.2
    · have hp : ⟨start, offset + u.byteSize⟩ ∈
          blockSpans opener closer (fun _ => false) offset u := by
        rw [hline, show leavesOpen opener closer u = true from hopen]
        exact List.mem_append_right _ (List.mem_singleton_self _)
      exact (hbounds hp).2.1.le

theorem any_touches_openSpans (hc : closer ≠ []) (hstart : start ≤ offset)
    (hne : u ++ (v ++ t) ≠ []) : (openSpans opener closer start offset (u ++ (v ++ t))).any
      (·.touches offset u.byteSize) = true := by
  obtain ⟨stop, spans, hspans, -, hlt, -⟩ :=
    exists_openSpans hc opener start offset (u ++ (v ++ t))
  have htouch : Span.touches ⟨start, stop⟩ offset u.byteSize = true := by
    have := hlt hne
    simp only [Span.touches, Bool.and_eq_true, decide_eq_true_eq]
    omega
  rw [hspans, List.any_cons, htouch, Bool.true_or]

/-- A line within a comment that goes on behind it. -/
theorem cuts_unclosed (hc : closer.Inline) (hv : LineEnd v t) (hstart : start ≤ offset)
    (hne : u ++ (v ++ t) ≠ []) (h : cut? closer u = none) : Cuts opener closer
      (openSpans opener closer start offset (u ++ (v ++ t))) true offset u v t := by
  have hpieces : linePieces opener closer true u = [.comment .plain u] := by
    rw [linePieces, if_pos rfl, h]
  have hopen : lineOpen opener closer true u = true := by
    rw [lineOpen, if_pos rfl, h]
  have hshift := hc.cut?_append h hv
  rw [← List.append_assoc] at hshift
  have hbehind : openSpans opener closer start offset (u ++ (v ++ t)) =
      openSpans opener closer start (offset + u.byteSize + v.byteSize) t := by
    rw [← List.append_assoc, openSpans_shift hshift, byteSize_append, Nat.add_assoc]
  constructor
  case kept =>
    obtain ⟨stop, spans, hspans, hle, -⟩ :=
      exists_openSpans hc.ne_nil opener start (offset + u.byteSize + v.byteSize) t
    rw [hpieces, hbehind, hspans]
    exact outside_of_mem List.mem_cons_self hstart (by dsimp only; omega)
  case touched =>
    rw [any_touches_openSpans hc.ne_nil hstart hne, hpieces]
    rfl
  case behind =>
    rw [hopen, hbehind]
    exact ⟨[], start, rfl, List.forall_mem_nil _, fun _ => by omega⟩

/-- A line that begins within a comment and goes on in code behind it. -/
theorem cuts_closed (ho : opener.Inline) (hc : closer.Inline) (hv : LineEnd v t)
    (hstart : start ≤ offset) (hne : u ++ (v ++ t) ≠ []) (h : cut? closer u = some (body, rest)) :
    Cuts opener closer
      (openSpans opener closer start offset (u ++ (v ++ t))) true offset u v t := by
  set mid := offset + body.byteSize + closer.byteSize
  have hpieces : linePieces opener closer true u = .comment .plain (body ++ closer) ::
      blockPieces opener closer (fun _ => false) rest := by
    rw [linePieces, if_pos rfl, h]
  have hopen : lineOpen opener closer true u = leavesOpen opener closer rest := by
    rw [lineOpen, if_pos rfl, h]
  have hall : openSpans opener closer start offset (u ++ (v ++ t)) = ⟨start, mid⟩ ::
      blockSpans opener closer (fun _ => false) mid (rest ++ (v ++ t)) :=
    openSpans_of_some (cut?_append_of_some h _)
  have hsize : offset + u.byteSize = mid + rest.byteSize := by
    rw [byteSize_of_cut? h]
    omega
  have hcode := cuts_code ho hc hv mid rest
  constructor
  case kept =>
    set later := blockSpans opener closer (fun _ => false) mid (rest ++ (v ++ t))
    have hfirst : outside (⟨start, mid⟩ :: later) offset (body ++ closer) = [] :=
      outside_of_mem List.mem_cons_self hstart (by simp only [byteSize_append, mid]; omega)
    rw [hall, hpieces]
    calc
      _ = outside (⟨start, mid⟩ :: later) offset (body ++ closer ++ rest) := by rw [cut?_append h]
      _ = outside (⟨start, mid⟩ :: later) mid rest := by
        rw [outside_append, hfirst, byteSize_append, ← Nat.add_assoc]
        rfl
      _ = outside later mid rest := outside_cons_of_le (Nat.le_refl _)
      _ = _ := hcode.kept
  case touched =>
    rw [any_touches_openSpans hc.ne_nil hstart hne, hpieces]
    rfl
  case behind =>
    obtain ⟨pre, start', hcode, hpre, hstart'⟩ := hcode.behind
    rw [hopen, hall, hcode, hsize]
    refine ⟨⟨start, mid⟩ :: pre, start', rfl, ?_, hstart'⟩
    rw [List.forall_mem_cons]
    exact ⟨Nat.le_add_right .., hpre⟩

theorem cuts_within (ho : opener.Inline) (hc : closer.Inline) (hv : LineEnd v t)
    (hstart : start ≤ offset) (hne : u ++ (v ++ t) ≠ []) : Cuts opener closer
      (openSpans opener closer start offset (u ++ (v ++ t))) true offset u v t := by
  cases h : cut? closer u with
  | none => exact cuts_unclosed hc hv hstart hne h
  | some p => exact cuts_closed ho hc hv hstart hne h

theorem cuts_spansBehind (ho : opener.Inline) (hc : closer.Inline) (hv : LineEnd v t)
    {within : Bool} (hstart : within = true → start ≤ offset) (hne : u ++ (v ++ t) ≠ []) :
    Cuts opener closer (spansBehind opener closer within start offset (u ++ (v ++ t)))
      within offset u v t := by
  cases within with
  | false => exact cuts_code ho hc hv offset u
  | true => exact cuts_within ho hc hv (hstart rfl) hne

end CleanCopy.Text
