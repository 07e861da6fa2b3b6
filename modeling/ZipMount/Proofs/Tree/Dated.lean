import ZipMount.Archive.Image
import ZipMount.Proofs.Tree.Laws

namespace ZipMount

namespace Tree

/-- Every member was modified on a day of the calendar. -/
def Dated (t : Tree) : Prop := ∀ km ∈ t.members, km.2.times.modified.onCalendar = true

variable {t t' : Tree} {k : MemberKey} {now : Instant}

theorem Dated.insert (ht : t.Dated) (k : MemberKey) {m : Member}
    (hm : m.times.modified.onCalendar = true) : (t.insert k m).Dated := by
  intro km hkm
  rcases Table.mem_put hkm with rfl | hkm
  · exact hm
  · exact ht km hkm

theorem Dated.writeFile (ht : t.Dated) (hnow : now.onCalendar = true) {data : ByteArray}
    {mode : WriteMode} (h : t.writeFile now k data mode = .ok t') : t'.Dated := by
  rw [writeFile_eq] at h
  split at h
  · cases h
  · cases h
  · cases h
    exact ht.insert k hnow
  · obtain ⟨u, -, h⟩ := bind_eq_ok h
    cases h
    exact ht.insert k hnow

theorem Dated.encode (ht : t.Dated) (method : Compression) (time : Instant) :
    t.encode method ≠ .error (.offCalendar time) := by
  obtain ⟨ds, hds⟩ : ∃ ds, t.drafts method = .ok ds :=
    mapM_of_exists fun km hkm => ⟨_, if_pos (ht km hkm)⟩
  unfold Tree.encode
  rw [hds]
  change (Zip.write ds).mapError _ ≠ _
  cases Zip.write ds with
  | ok b => exact nofun
  | error f => exact nofun

end Tree

end ZipMount
