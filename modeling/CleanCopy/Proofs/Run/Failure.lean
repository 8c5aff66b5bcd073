import CleanCopy.Files.Disk
import CleanCopy.Run.Convert

namespace CleanCopy.Job

variable {j : Job} {projects : Projects} {d e : Disk} {p : Path} {t : Text} {k : Kind}
  {o : ScrubOptions} {err : Failure}

theorem kindOf_of_handledBy (h : handledBy Kind.all p = true) : ∃ k, kindOf p = .ok k := by
  rw [kindOf]
  cases hn : p.fileName? with
  | none =>
    rw [handledBy, hn] at h
    cases h
  | some n =>
    rw [handledBy, hn] at h
    obtain ⟨k, hk⟩ := Option.isSome_iff_exists.mp (List.find?_isSome.mpr (List.any_eq_true.mp h))
    exact ⟨k, by rw [Option.bind_some, Kind.ofFileName?, hk]⟩

/-- The text of a copy is the scrubbed text of its file, without a mark before it. -/
theorem copyText_of_text (hk : kindOf p = .ok k) (ht : d.textOf p = .ok t) :
    copyText o d p = .ok (k.scrub o ((Text.after? ['\uFEFF'] t).getD t)) := by
  have hread : readSource d p = .ok ((Text.after? ['\uFEFF'] t).getD t) := by
    rw [readSource, Disk.read, ht]
    refine congrArg Except.ok ?_
    cases t with
    | nil => rfl
    | cons c t =>
      by_cases hc : c = '\uFEFF'
      · subst hc
        rfl
      · rw [Text.after?, if_neg (Ne.symm hc)]
        dsimp only
        split
        · rename_i heq
          exact absurd (List.cons.inj heq).1 hc
        · rfl
  have hscrub (t : Text) : scrub o p t = .ok (k.scrub o t) := by
    rw [scrub, hk]
    rfl
  rw [copyText, hread]
  exact hscrub _

theorem copyText_of_error {cause : FileError} (ht : d.textOf p = .error cause) :
    copyText o d p = .error (.file p cause.message) := by
  rw [copyText, readSource, Disk.read, ht]
  rfl

/-- Writing fails only with a failure about a file. -/
theorem writeWithParents_error (h : (e.writeWithParents p t).2 = .error err) :
    ∃ q cause, err = .file q cause := by
  have hwrite (e : Disk) (h : (e.write p t).2 = .error err) : ∃ q cause, err = .file q cause := by
    rw [Disk.write] at h
    split at h
    · cases h
    · exact ⟨_, _, (Except.error.inj h).symm⟩
  rw [Disk.writeWithParents] at h
  split at h
  · split at h
    · exact hwrite _ h
    · rename_i f err' he
      obtain rfl := Except.error.inj h
      rw [Disk.ensureDir] at he
      split at he
      · cases he
      · split at he
        · cases he
        · exact ⟨_, _, (Except.error.inj (Prod.mk.inj he).2).symm⟩
  · exact hwrite _ h

/-- A file of some kind is never refused as unsupported. -/
theorem copyFile_error (hkind : handledBy Kind.all p = true)
    (h : (j.copyFile projects p e).2 = .error err) : ∃ q cause, err = .file q cause := by
  obtain ⟨k, hk⟩ := kindOf_of_handledBy hkind
  rw [copyFile] at h
  cases ht : e.textOf p with
  | error cause =>
    rw [copyText_of_error ht] at h
    exact ⟨_, _, (Except.error.inj h).symm⟩
  | ok t =>
    rw [copyText_of_text hk ht] at h
    exact writeWithParents_error h

end CleanCopy.Job
