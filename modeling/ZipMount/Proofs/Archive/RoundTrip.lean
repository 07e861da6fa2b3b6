import Mathlib.Control.Monad.Basic
import ZipMount.Proofs.Time.Dos
import ZipMount.Proofs.Tree.Reachable

namespace ZipMount

/-- The codec reads back what is written of some drafts: every entry in its place, with the same
name, contents, date words and stamp. `Zip.write` is no such codec of more than 65535 drafts. -/
def Zip.ReadsBack (ds : List Zip.Draft) : Prop :=
  ∀ b, Zip.write ds = .ok b → Zip.read b = .ok (ds.map fun d => .ok d.toEntry)

namespace Times

def FitStamp (ts : Times) : Prop :=
  ∀ t ∈ [ts.created, ts.modified, ts.accessed], 0 ≤ t.seconds ∧ t.seconds < 2147483648

instance (ts : Times) : Decidable ts.FitStamp := inferInstanceAs (Decidable (∀ t ∈ _, _))

/-- The times without their fractions of a second. -/
def wholeSeconds (ts : Times) : Times :=
  ⟨ts.created.wholeSecond, ts.modified.wholeSecond, ts.accessed.wholeSecond⟩

def restored (ts : Times) : Times :=
  if ts.FitStamp then ts.wholeSeconds
  else .all (DosTime.reading (.ofInstant ts.modified)).toInstant

end Times

namespace Tree

open MemberKey

theorem word?_eq_some {t : Instant} (h : 0 ≤ t.seconds ∧ t.seconds < 2147483648) :
    word? t = some (UInt32.ofNat t.seconds.toNat) := if_pos h

theorem ofWord_ofNat {t : Instant} (h : 0 ≤ t.seconds ∧ t.seconds < 2147483648) :
    ofWord (UInt32.ofNat t.seconds.toNat) = t.wholeSecond := by
  have hn : (UInt32.ofNat t.seconds.toNat).toNat = t.seconds.toNat := by
    rw [UInt32.toNat_ofNat']
    exact Nat.mod_eq_of_lt (by omega)
  rw [ofWord, hn, Int.toNat_of_nonneg h.1]
  rfl

theorem stamp?_of_fit {ts : Times} (h : ts.FitStamp) :
    stamp? ts = some (.full (UInt32.ofNat ts.modified.seconds.toNat)
      (UInt32.ofNat ts.accessed.seconds.toNat) (UInt32.ofNat ts.created.seconds.toNat)) := by
  have hc := h ts.created (by simp)
  have hm := h ts.modified (by simp)
  have ha := h ts.accessed (by simp)
  simp [stamp?, word?_eq_some hc, word?_eq_some hm, word?_eq_some ha]

theorem stamp?_of_not_fit {ts : Times} (h : ¬ ts.FitStamp) : stamp? ts = none := by
  simp only [Times.FitStamp, List.mem_cons, List.not_mem_nil, or_false, forall_eq_or_imp,
    forall_eq] at h
  unfold stamp? word?
  by_cases hm : 0 ≤ ts.modified.seconds ∧ ts.modified.seconds < 2147483648
  · by_cases ha : 0 ≤ ts.accessed.seconds ∧ ts.accessed.seconds < 2147483648
    · have hc : ¬ (0 ≤ ts.created.seconds ∧ ts.created.seconds < 2147483648) :=
        fun hc => h ⟨hc, hm, ha⟩
      simp [if_neg hc]
    · simp [if_neg ha]
  · simp [if_neg hm]

/-- The times of the entry that is written for a member with some times. -/
theorem entryTimes_written (name : String) (ts : Times) (contents : Except IoFault ByteArray) :
    entryTimes ⟨name, .ofInstant ts.modified, stamp? ts, contents⟩ = ts.restored := by
  unfold Times.restored
  split
  · next h =>
    have hc := ofWord_ofNat (h ts.created (by simp))
    have hm := ofWord_ofNat (h ts.modified (by simp))
    have ha := ofWord_ofNat (h ts.accessed (by simp))
    simp [entryTimes, stamp?_of_fit h, Zip.Stamp.full, hc, hm, ha, Times.wholeSeconds]
  · next h =>
    simp [entryTimes, stamp?_of_not_fit h, DosTime.toInstant?_ofInstant, Times.all]

/-- The name of a file says nothing of a directory. -/
def PlainName (k : MemberKey) (m : Member) : Prop :=
  m.isDirectory = false → k.text.toList.getLast? ≠ some '\\'

theorem draft_ok {method : Compression} {k : MemberKey} {m : Member} {d : Zip.Draft}
    (h : draft method k m = .ok d) :
    d.toEntry = ⟨if m.isDirectory then k.text ++ "/" else k.text,
      .ofInstant m.times.modified, stamp? m.times,
      .ok (match m.content with | .directory => ByteArray.empty | .file data => data)⟩ := by
  unfold draft at h
  split at h
  · obtain ⟨content, times⟩ := m
    cases content <;> cases h <;> rfl
  · cases h

theorem ofText_entry_name {k : MemberKey} (hk : Canonical k) (m : Member) :
    ofText (if m.isDirectory then k.text ++ "/" else k.text) = k := by
  split
  · rw [ofText_append_slash, ofText_text hk]
  · exact ofText_text hk

/-- The member that is read of what was written for one. -/
theorem entryMember_written {method : Compression} {k : MemberKey} {m : Member} {d : Zip.Draft}
    (h : draft method k m = .ok d) (hk : Canonical k) (hplain : PlainName k m) :
    entryMember d.toEntry = .ok ⟨m.content, m.times.restored⟩ := by
  have htimes := entryTimes_written
  rw [draft_ok h]
  obtain ⟨content, times⟩ := m
  cases content with
  | directory =>
    have hd : Zip.Entry.isDirectory ⟨k.text ++ "/", .ofInstant times.modified, stamp? times,
        .ok ByteArray.empty⟩ = true := by
      simp [Zip.Entry.isDirectory]
    simp only [Member.isDirectory, if_true, entryMember, hd, htimes]
  | file data =>
    have hd : Zip.Entry.isDirectory ⟨k.text, .ofInstant times.modified, stamp? times,
        .ok data⟩ = false := by
      have hslash := (text_bare hk).2
      have hback := hplain rfl
      unfold Zip.Entry.isDirectory
      cases hc : k.text.toList.getLast? with
      | none => rfl
      | some c =>
        rw [hc] at hslash hback
        simp only [ne_eq, Option.some.injEq] at hslash hback
        simp [hslash, hback]
    simp only [Member.isDirectory, Bool.false_eq_true, if_false, entryMember, hd, htimes]
    rfl

def restoredMembers (ms : Table MemberKey Member) : Table MemberKey Member :=
  ms.map fun km => (km.1, ⟨km.2.content, km.2.times.restored⟩)

theorem keys_restoredMembers (ms : Table MemberKey Member) :
    (restoredMembers ms).keys = ms.keys := by
  simp [restoredMembers, Table.keys, Function.comp_def]

theorem get?_restoredMembers (ms : Table MemberKey Member) (k : MemberKey) :
    (restoredMembers ms).get? k =
      (ms.get? k).map fun m => ⟨m.content, m.times.restored⟩ := by
  induction ms with
  | nil => rfl
  | cons lw rest ih =>
    obtain ⟨l, w⟩ := lw
    have hcons : restoredMembers ((l, w) :: rest) =
        (l, ⟨w.content, w.times.restored⟩) :: restoredMembers rest := rfl
    rw [hcons, Table.get?_cons, Table.get?_cons, ih]
    split <;> rfl

/-- What was written for a member that comes next is read to come next. -/
theorem addEntry_written {now : Times} {method : Compression} {done : Table MemberKey Member}
    {k : MemberKey} {m : Member} {d : Zip.Draft} (h : WellFormed ⟨now, done ++ [(k, m)]⟩)
    (hplain : PlainName k m) (hd : draft method k m = .ok d) :
    addEntry ⟨now, restoredMembers done⟩ (.ok d.toEntry) =
      .ok ⟨now, restoredMembers (done ++ [(k, m)])⟩ := by
  have hdone : WellFormed ⟨now, done⟩ := h.take
  have hs : WellFormed ⟨now, restoredMembers done⟩ :=
    wellFormed_of_order hdone (keys_restoredMembers done)
  have hmem : k ∈ order ⟨now, done ++ [(k, m)]⟩ := by
    rw [order, Table.keys_concat]
    exact List.mem_append_right _ (List.mem_singleton_self k)
  have hn := h.ne_nil k hmem
  have hc := h.canonical k hmem
  have hnew : k ∉ done.keys := by
    have hnodup := h.nodup
    rw [order, Table.keys_concat] at hnodup
    intro hk
    exact (List.nodup_append.mp hnodup).2.2 k hk k (List.mem_singleton_self k) rfl
  have hparent : parent k = [] ∨ parent k ∈ order ⟨now, restoredMembers done⟩ := by
    by_cases hp : parent k = []
    · exact Or.inl hp
    · right
      have hpk := h.closed k hmem hp
      rw [order, Table.keys_concat, List.mem_append, List.mem_singleton] at hpk
      rw [order, keys_restoredMembers]
      exact hpk.resolve_right (parent_ne_self hn)
  have hname : ofText d.toEntry.name = k := by
    rw [draft_ok hd]
    exact ofText_entry_name hc m
  have hins : (⟨now, restoredMembers done⟩ : Tree).insert k ⟨m.content, m.times.restored⟩ =
      ⟨now, restoredMembers (done ++ [(k, m)])⟩ := by
    rw [insert_new (by rwa [order, keys_restoredMembers])]
    simp [restoredMembers]
  rw [addEntry_eq, hname, if_neg hn, entryMember_written hd hc hplain]
  simp only [hs.ensureParents_eq hparent, hins]

/-- Reading goes on from the members read so far to those that are left. -/
theorem foldlM_addEntry_written {now : Times} {method : Compression}
    {done rest : Table MemberKey Member} {ds : List Zip.Draft}
    (h : WellFormed ⟨now, done ++ rest⟩) (hplain : ∀ km ∈ rest, PlainName km.1 km.2)
    (hds : (rest.mapM fun km => draft method km.1 km.2) = .ok ds) :
    (ds.map fun d => .ok d.toEntry).foldlM addEntry ⟨now, restoredMembers done⟩ =
      .ok ⟨now, restoredMembers (done ++ rest)⟩ := by
  induction rest generalizing done ds with
  | nil =>
    cases hds
    rw [List.append_nil]
    rfl
  | cons km rest ih =>
    obtain ⟨k, m⟩ := km
    rw [List.mapM_cons] at hds
    obtain ⟨d, hd, hds⟩ := bind_eq_ok hds
    obtain ⟨ds', hrest, hds⟩ := bind_eq_ok hds
    cases hds
    have hsplit : done ++ (k, m) :: rest = (done ++ [(k, m)]) ++ rest := by simp
    rw [hsplit] at h ⊢
    have hnext : WellFormed ⟨now, done ++ [(k, m)]⟩ := h.take
    have hstep := addEntry_written hnext (hplain (k, m) List.mem_cons_self) hd
    rw [List.map_cons, List.foldlM_cons, hstep]
    exact ih h (fun km hkm => hplain km (List.mem_cons_of_mem _ hkm)) hrest

theorem drafts_of_encode {method : Compression} {t : Tree} {b : ByteArray}
    (h : t.encode method = .ok b) : ∃ ds, t.drafts method = .ok ds ∧ Zip.write ds = .ok b := by
  obtain ⟨ds, hds, hw⟩ := bind_eq_ok h
  exact ⟨ds, hds, mapError_eq_ok hw⟩

/-- What is read of the bytes that were written for a tree. -/
theorem decode_written {t : Tree} (h : t.WellFormed)
    (hplain : ∀ km ∈ t.members, PlainName km.1 km.2) {method : Compression} {b : ByteArray}
    (hb : t.encode method = .ok b)
    (hcodec : ∀ ds, t.drafts method = .ok ds → Zip.ReadsBack ds) (now : Instant) :
    decode now b = .ok ⟨.all now, restoredMembers t.members⟩ := by
  obtain ⟨ds, hds, hw⟩ := drafts_of_encode hb
  have hroot : WellFormed ⟨.all now, [] ++ t.members⟩ := wellFormed_of_order h rfl
  have hfold := foldlM_addEntry_written hroot hplain hds
  unfold decode
  rw [hcodec ds hds b hw]
  exact hfold

/-- What is read of a written tree: the same keys in the same order, with the same kinds and
contents. Times come back without their fractions of a second if a stamp can hold all three;
otherwise all three are the moment that the packed date of the modification names. -/
structure ReadAs (t t' : Tree) : Prop where
  order : t'.order = t.order
  members : ∀ k ∈ t.order, ∃ m m', t.find? k = some m ∧ t'.find? k = some m' ∧
    m'.content = m.content ∧
    (m.times.FitStamp → m'.times = m.times.wholeSeconds) ∧
    (¬ m.times.FitStamp → ∃ d, (DosTime.ofInstant m.times.modified).toInstant? = some d ∧
      m'.times = .all d)

/-- Whatever a mount has come to hold, it reads back as it was written. -/
theorem decode_encode {t : Tree} (h : t.Reachable)
    (hfiles : ∀ k data times, t.find? k = some ⟨.file data, times⟩ →
      k.text.toList.getLast? ≠ some '\\') {method : Compression} {b : ByteArray}
    (hb : t.encode method = .ok b)
    (hcodec : ∀ ds, t.drafts method = .ok ds → Zip.ReadsBack ds) (now : Instant) :
    ∃ t', decode now b = .ok t' ∧ t.ReadAs t' := by
  have hw := h.wellFormed
  have hplain : ∀ km ∈ t.members, PlainName km.1 km.2 := by
    rintro ⟨k, ⟨content, times⟩⟩ hkm hd
    cases content with
    | directory => cases hd
    | file data => exact hfiles k data times (hw.get?_of_mem hkm)
  refine ⟨_, decode_written hw hplain hb hcodec now, keys_restoredMembers t.members, ?_⟩
  intro k hk
  have hn := hw.ne_nil k hk
  obtain ⟨m, hm⟩ := exists_find_of_mem hn hk
  refine ⟨m, ⟨m.content, m.times.restored⟩, hm, ?_, rfl, ?_, ?_⟩
  · rw [find?_of_ne_nil _ hn] at hm ⊢
    rw [get?_restoredMembers, hm]
    rfl
  · exact fun hfit => if_pos hfit
  · exact fun hfit => ⟨_, DosTime.toInstant?_ofInstant _, if_neg hfit⟩

deriving instance DecidableEq for Zip.Entry

/-- A world with one mount, of an empty archive, in April 2010. -/
def emptyWorld : World :=
  { World.start (.empty .epoch) (fun _ => ⟨1270808131500000000⟩) "" with
    mounts := [{ tangledMount with tree := empty .epoch }] }

/-- Calls that leave a directory from before 1970, and in it a file. -/
def fillingCalls : List Call :=
  let path := fun text => (FileSystem.archive ⟨0, 0⟩).path text
  [⟨.archive 0, path "docs", .makeDirectory⟩,
    ⟨.archive 0, path "docs/a.txt", .write (contents [104]) .createNew⟩,
    ⟨.archive 0, path "docs", .setTimes ⟨some (.ofSeconds (-310000000)), none, none⟩⟩]

def filledTree : Tree :=
  (((emptyWorld.after fillingCalls).mount? ⟨0, 0⟩).map Mount.tree).getD (empty .epoch)

def filledDrafts : List Zip.Draft := (filledTree.drafts .deflated).toOption.getD []

def filledBytes : ByteArray := (Zip.write filledDrafts).toOption.getD ByteArray.empty

theorem readsBack_filledDrafts : Zip.ReadsBack filledDrafts := by
  intro b hb
  have hw : Zip.write filledDrafts = .ok filledBytes := rfl
  rw [hw, Except.ok.injEq] at hb
  subst hb
  decide +kernel

theorem decode_encode_filledTree :
    filledTree.Reachable ∧ filledTree.encode .deflated = .ok filledBytes ∧
      filledTree.drafts .deflated = .ok filledDrafts ∧ Zip.ReadsBack filledDrafts ∧
      ∃ t', decode .epoch filledBytes = .ok t' ∧ filledTree.ReadAs t' := by
  have hreach : filledTree.Reachable :=
    ⟨emptyWorld, ⟨0, 0⟩, _, _, fillingCalls, rfl, Or.inl ⟨.epoch, rfl⟩, rfl, rfl⟩
  have hb : filledTree.encode .deflated = .ok filledBytes := rfl
  have hds : filledTree.drafts .deflated = .ok filledDrafts := rfl
  have hfiles : ∀ k data times, filledTree.find? k = some ⟨.file data, times⟩ →
      k.text.toList.getLast? ≠ some '\\' := by
    intro k data times hk
    have hn : k ≠ [] := by rintro rfl; cases hk
    have hmem := mem_order_of_find hn hk
    have horder : filledTree.order = [["docs"], ["docs", "a.txt"]] := rfl
    rw [horder] at hmem
    simp only [List.mem_cons, List.not_mem_nil, or_false] at hmem
    rcases hmem with rfl | rfl <;> decide
  refine ⟨hreach, hb, hds, readsBack_filledDrafts, decode_encode hreach hfiles hb ?_ .epoch⟩
  intro ds h
  rw [hds, Except.ok.injEq] at h
  exact h ▸ readsBack_filledDrafts

end Tree

end ZipMount
