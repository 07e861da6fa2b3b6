import ZipMount.Proofs.Archives.Entry
import ZipMount.Proofs.Calling

namespace ZipMount

namespace Path

open ZipMount.Action

theorem calling_makeDirectory (p : Path) : p.makeDirectory.Calling :=
  calling_ofWork (c := ⟨p.provider, p, .makeDirectory⟩) fun _ => rfl

theorem calling_write (p : Path) (data : ByteArray) (mode : WriteMode) :
    (p.write data mode).Calling :=
  calling_ofWork (c := ⟨p.provider, p, .write data mode⟩) fun _ => rfl

theorem calling_ensureDirectory (p : Path) : p.ensureDirectory.Calling := by
  intro w
  cases hmake : p.provider.makeDirectory w p with
  | ok v =>
    have hrun := p.calling_makeDirectory w
    rw [makeDirectory_of_ok hmake] at hrun
    rw [ensureDirectory_of_ok hmake]
    exact hrun
  | error e =>
    rw [ensureDirectory_of_error hmake]
    split
    · exact ⟨⟨[], rfl⟩, nofun⟩
    · exact ⟨⟨[], rfl⟩, nofun⟩

theorem calling_makeDirectoriesUpTo (n : Nat) (p : Path) : (p.makeDirectoriesUpTo n).Calling := by
  induction n generalizing p with
  | zero => exact calling_pure ()
  | succ n ih =>
    intro w
    rw [makeDirectoriesUpTo_succ]
    split
    · exact ⟨⟨[], rfl⟩, nofun⟩
    · split
      · split
        · exact ((ih _).bind fun _ => p.calling_ensureDirectory) w
        · exact p.calling_ensureDirectory w
      · exact p.calling_ensureDirectory w

end Path

namespace Archives

open ZipMount.Action

theorem calling_copyEntry (p d : Path) : (copyEntry p d).Calling := by
  intro w
  cases hc : p.content? w with
  | none =>
    obtain ⟨e, he⟩ := copyEntry_nothing hc d
    rw [he]
    exact ⟨⟨[], rfl⟩, nofun⟩
  | some c =>
    cases c with
    | directory =>
      rw [copyEntry_directory hc]
      exact d.calling_ensureDirectory w
    | file data =>
      rw [copyEntry_file hc]
      exact d.calling_write data .replace w

theorem calling_copyBeneath (source target p : Path) : (copyBeneath source target p).Calling :=
  (calling_ask _).bind fun d => (calling_copyEntry p d).noted _

theorem calling_copyTree (source target : Path) (order : WalkOrder) :
    (copyTree source target order).Calling :=
  (calling_ask _).bind fun found => calling_forM (calling_copyBeneath source target) found

/-- A source that is no directory is copied under its name. -/
theorem copyIntoArchive_of_file {source : Path} {w : World} (h : source.isDirectory w = false)
    (fs : FileSystem) (order : WalkOrder) :
    copyIntoArchive source fs order w =
      match source.fileName? with
      | none => (.error (.error (.notFound source.display)), w)
      | some name =>
        let target := (fs.path "/").resolve name
        noted s!"Could not copy {source.display} to {target.display}" (copyEntry source target) w
    := by
  unfold copyIntoArchive
  rw [get_bind]
  simp only [h, Bool.false_eq_true, if_false]
  cases source.fileName? with
  | none => rfl
  | some name =>
    apply noted_congr
    unfold copyEntry
    rw [get_bind]
    simp only [h, Bool.false_eq_true, if_false]

theorem copyIntoArchive_of_directory {source : Path} {w : World}
    (h : source.isDirectory w = true) (fs : FileSystem) (order : WalkOrder) :
    copyIntoArchive source fs order w = copyTree source (fs.path "/") order w := by
  unfold copyIntoArchive
  rw [get_bind]
  simp only [h, if_true]

theorem calling_copyIntoArchive (source : Path) (fs : FileSystem) (order : WalkOrder) :
    (copyIntoArchive source fs order).Calling := by
  intro w
  cases hd : source.isDirectory w with
  | true =>
    rw [copyIntoArchive_of_directory hd]
    exact calling_copyTree source _ order w
  | false =>
    rw [copyIntoArchive_of_file hd]
    split
    · exact ⟨⟨[], rfl⟩, nofun⟩
    · exact ((calling_copyEntry source _).noted _) w

theorem calling_copyFromArchive (fs : FileSystem) (target : Path) :
    (copyFromArchive fs target).Calling :=
  calling_copyTree fs.root target .natural

theorem calling_ensureTarget (target : Path) : (ensureTarget target).Calling := by
  refine calling_get fun w => ?_
  split
  · exact calling_fail _
  · exact Path.calling_makeDirectoriesUpTo _ target

end Archives

end ZipMount
