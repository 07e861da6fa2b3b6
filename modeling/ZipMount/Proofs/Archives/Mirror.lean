import ZipMount.Proofs.Archive.RoundTrip
import ZipMount.Proofs.Archives.Destination
import ZipMount.Proofs.Archives.Source
import ZipMount.Proofs.Tree.Outline

namespace ZipMount

open MemberKey

def Content.kind : Content → HostKind
  | .directory => .directory
  | .file data => .file data

theorem HostKind.content?_eq_some {k : HostKind} {c : Content} :
    k.content? = some c ↔ k = c.kind := by
  cases k with
  | directory => cases c <;> simp [content?, Content.kind]
  | file data => cases c <;> simp [content?, Content.kind]
  | link target => cases c <;> simp [content?, Content.kind]

namespace MemberKey

variable {ks : List MemberKey} {k : MemberKey}

/-- Keys that come once each, and after the directory they are in. -/
def ParentsFirst (ks : List MemberKey) : Prop :=
  ∀ before k after, ks = before ++ k :: after → k ∉ before ∧ (k ≠ [] → parent k ∈ before)

/-- A listing of names that are text is one of keys. -/
theorem exists_map_filenames {l : Listing} (hl : ∀ r ∈ l, ∃ k : MemberKey, r = k.filenames) :
    ∃ ks : List MemberKey, l = ks.map filenames := by
  induction l with
  | nil => exact ⟨[], rfl⟩
  | cons r l ih =>
    obtain ⟨k, rfl⟩ := hl r List.mem_cons_self
    obtain ⟨ks, rfl⟩ := ih fun s hs => hl s (List.mem_cons_of_mem _ hs)
    exact ⟨k :: ks, rfl⟩

theorem kind?_parent {h : Host} (hw : h.WellFormed) {loc : Location} (hk : k ≠ [])
    (hsome : h.kind? (loc ++ k.filenames) ≠ none) :
    h.kind? (loc ++ (parent k).filenames) = some .directory := by
  obtain ⟨n, hn⟩ := filenames_eq_concat hk
  obtain ⟨kind, hkind⟩ := Option.ne_none_iff_exists'.mp hsome
  rw [hn, ← List.append_assoc] at hkind
  exact hw.kind?_prefix hkind (List.cons_ne_nil n [])

/-- A listing that goes forward has parents first, if it has them at all. -/
theorem parentsFirst_of_forward (hforward : Listing.Forward (ks.map filenames))
    (hclosed : ∀ k ∈ ks, k ≠ [] → parent k ∈ ks) : ParentsFirst ks := by
  rintro before k after rfl
  rw [Listing.Forward, List.pairwise_map, List.pairwise_append] at hforward
  obtain ⟨-, hlast, hcross⟩ := hforward
  refine ⟨?_, ?_⟩
  · intro hk
    exact hcross k hk k List.mem_cons_self List.prefix_rfl
  · intro hne
    have hparent := hclosed k (List.mem_append_right _ List.mem_cons_self) hne
    rcases List.mem_append.mp hparent with hbefore | hafter
    · exact hbefore
    · rcases List.mem_cons.mp hafter with hself | hafter
      · exact absurd hself (parent_ne_self hne)
      · have hnot := (List.pairwise_cons.mp hlast).1 _ hafter
        exact absurd (filenames_mono (parent_isPrefix k)) hnot

end MemberKey

/-- All names beneath a place are text. -/
def Host.TextNames (h : Host) (loc : Location) : Prop :=
  ∀ r, h.kind? (loc ++ r) ≠ none → ∃ k : MemberKey, r = k.filenames

/-- No file beneath a place has a name that ends in a backslash. -/
def Host.PlainNames (h : Host) (loc : Location) : Prop :=
  ∀ r n data, h.kind? (loc ++ (r ++ [n])) = some (.file data) → n.getLast? ≠ some 92

namespace MemberKey

/-- The text of the key of a file does not end in a backslash then. -/
theorem getLast?_text {h : Host} {loc : Location} (hnames : h.PlainNames loc) {k : MemberKey}
    {data : ByteArray} (hk : h.kind? (loc ++ k.filenames) = some (.file data)) :
    k.text.toList.getLast? ≠ some '\\' := by
  intro hlast
  have hne : k ≠ [] := by
    rintro rfl
    cases hlast
  obtain ⟨init, s, rfl⟩ : ∃ (init : MemberKey) (s : String), k = init ++ [s] :=
    ⟨_, _, (List.dropLast_concat_getLast hne).symm⟩
  rw [filenames_append] at hk
  exact hnames _ (Text.bytes s) data hk (Text.getLast?_bytes (getLast?_of_text hlast))

end MemberKey

namespace Tree

variable {t : Tree} {h : Host} {loc : Location} {done : List MemberKey} {k : MemberKey}

/-- What is under a key, as the host has it. -/
def kind? (t : Tree) (k : MemberKey) : Option HostKind := (t.find? k).map fun x => x.content.kind

theorem kind?_insert (t : Tree) (hk : k ≠ []) (x : Member) (j : MemberKey) :
    (t.insert k x).kind? j = if j = k then some x.content.kind else t.kind? j := by
  rw [kind?, find?_insert t hk]
  split <;> rfl

theorem checkParent_iff_kind? :
    t.checkParent k = .ok () ↔ t.kind? (parent k) = some .directory := by
  rw [checkParent_ok_iff, kind?, Option.map_eq_some_iff]
  have hkind : ∀ x : Member, x.isDirectory = true ↔ x.content.kind = .directory := by
    rintro ⟨content, times⟩
    cases content with
    | directory => simp [Member.isDirectory, Content.kind]
    | file data => simp [Member.isDirectory, Content.kind]
  simp only [hkind]

/-- The members are what is beneath a place of the host, under the same names. -/
structure Mirrors (t : Tree) (h : Host) (loc : Location) : Prop where
  kinds : ∀ k : MemberKey, t.kind? k = h.kind? (loc ++ k.filenames)
  names : h.TextNames loc

theorem Mirrors.congr {h' : Host} (ht : t.Mirrors h loc)
    (hsame : ∀ r, h'.kind? (loc ++ r) = h.kind? (loc ++ r)) : t.Mirrors h' loc := by
  refine ⟨?_, ?_⟩
  · intro k
    rw [hsame]
    exact ht.kinds k
  · intro r hr
    rw [hsame] at hr
    exact ht.names r hr

/-- What two places have under the same names if they have the same image. -/
theorem Mirrors.kind?_eq {h' : Host} {loc' : Location} (ht : t.Mirrors h loc)
    (ht' : t.Mirrors h' loc') (r : List Filename) : h'.kind? (loc' ++ r) = h.kind? (loc ++ r) := by
  by_cases hr : ∃ k : MemberKey, r = k.filenames
  · obtain ⟨k, rfl⟩ := hr
    rw [← ht.kinds, ← ht'.kinds]
  · have hnone : h.kind? (loc ++ r) = none := not_not.mp fun hk => hr (ht.names r hk)
    have hnone' : h'.kind? (loc' ++ r) = none := not_not.mp fun hk => hr (ht'.names r hk)
    rw [hnone, hnone']

/-- The members are some of what is beneath a place of the host, and can be given dates. -/
structure Packed (t : Tree) (h : Host) (loc : Location) (done : List MemberKey) : Prop where
  wellFormed : t.WellFormed
  dated : ∀ km ∈ t.members, km.2.times.modified.onCalendar = true
  kinds : ∀ k : MemberKey, k ≠ [] → t.kind? k = if k ∈ done then h.kind? (loc ++ k.filenames) else none

theorem packed_empty (now : Instant) (h : Host) (loc : Location) : (empty now).Packed h loc [] := by
  refine ⟨wellFormed_empty now, fun km hkm => (List.not_mem_nil hkm).elim, ?_⟩
  intro k hk
  rw [kind?, find?_empty now hk]
  rfl

/-- There is a root already. -/
theorem Packed.root (ht : t.Packed h loc done) : t.Packed h loc (done ++ [[]]) := by
  refine ⟨ht.wellFormed, ht.dated, ?_⟩
  intro k hk
  have hsame : k ∈ done ++ [[]] ↔ k ∈ done := by simp [hk]
  rw [ht.kinds k hk]
  simp only [hsame]

theorem Packed.find?_eq_none (ht : t.Packed h loc done) (hk : k ≠ []) (hnew : k ∉ done) :
    t.find? k = none := by
  have hnone := ht.kinds k hk
  rw [if_neg hnew, kind?, Option.map_eq_none_iff] at hnone
  exact hnone

/-- The parent of an entry is a directory here if it is one there. -/
theorem Packed.checkParent (ht : t.Packed h loc done) (hdone : parent k ∈ done)
    (hdir : h.kind? (loc ++ (parent k).filenames) = some .directory) : t.checkParent k = .ok () := by
  rw [checkParent_iff_kind?]
  by_cases hroot : parent k = []
  · rw [hroot]
    rfl
  · rw [ht.kinds (parent k) hroot, if_pos hdone, hdir]

theorem Packed.insert (ht : t.Packed h loc done) (hk : k ≠ []) (hcanonical : Canonical k)
    (hnew : k ∉ done) (hparent : t.checkParent k = .ok ()) {x : Member}
    (hkind : h.kind? (loc ++ k.filenames) = some x.content.kind)
    (hdate : x.times.modified.onCalendar = true) :
    (t.insert k x).Packed h loc (done ++ [k]) := by
  have hfree : k ∉ t.order := notMem_order (ht.find?_eq_none hk hnew)
  refine ⟨ht.wellFormed.insert_new hk hcanonical (parent_mem_of_checkParent hparent) hfree x, ?_, ?_⟩
  · intro km hkm
    rw [insert_new hfree] at hkm
    rcases List.mem_append.mp hkm with hold | hnew
    · exact ht.dated km hold
    · rw [List.mem_singleton.mp hnew]
      exact hdate
  · intro j hj
    rw [kind?_insert t hk]
    by_cases hjk : j = k
    · subst hjk
      have hlast : j ∈ done ++ [j] := List.mem_append_right done List.mem_cons_self
      rw [if_pos rfl, if_pos hlast, hkind]
    · have hsame : j ∈ done ++ [k] ↔ j ∈ done := by simp [hjk]
      rw [if_neg hjk, ht.kinds j hj]
      simp only [hsame]

/-- Once all is put, the members are the image of the directory. -/
theorem Packed.mirrors (ht : t.Packed h loc done) (hdir : h.kind? loc = some .directory)
    (hnames : ∀ r, h.kind? (loc ++ r) ≠ none → ∃ k : MemberKey, r = k.filenames ∧ k ∈ done) :
    t.Mirrors h loc := by
  refine ⟨?_, fun r hr => ?_⟩
  · intro k
    by_cases hk : k = []
    · subst hk
      have hroot : loc ++ filenames [] = loc := List.append_nil loc
      rw [hroot, hdir]
      rfl
    · rw [ht.kinds k hk]
      split
      · rfl
      · next hnot =>
        symm
        by_contra hsome
        obtain ⟨j, hj, hdone⟩ := hnames _ hsome
        exact hnot (filenames_inj hj ▸ hdone)
  · obtain ⟨k, rfl, -⟩ := hnames r hr
    exact ⟨k, rfl⟩

theorem draft_of_dated {m : Member} (hdate : m.times.modified.onCalendar = true)
    (method : Compression) (k : MemberKey) : ∃ d, draft method k m = .ok d := by
  unfold draft
  rw [if_pos hdate]
  exact ⟨_, rfl⟩

theorem encode_of_dated (method : Compression)
    (hdated : ∀ km ∈ t.members, km.2.times.modified.onCalendar = true)
    (hshort : ∀ km ∈ t.members, (Text.bytes km.1.text).length < 65535) :
    ∃ b, t.encode method = .ok b := by
  -- total on all pairs, so that the drafts of the list are its image under one function
  have hdraft : ∀ km : MemberKey × Member, ∃ d, km ∈ t.members → draft method km.1 km.2 = .ok d := by
    intro km
    by_cases hkm : km ∈ t.members
    · obtain ⟨d, hd⟩ := draft_of_dated (hdated km hkm) method km.1
      exact ⟨d, fun _ => hd⟩
    · exact ⟨⟨"", false, method, .ofInstant .epoch, none, .empty⟩, fun h => absurd h hkm⟩
  obtain ⟨f, hf⟩ := Classical.skolem.mp hdraft
  have hdrafts : t.drafts method = .ok (t.members.map f) := mapM_of_ok hf
  have hfit : (t.members.map f).any (fun d => 65535 < (Text.bytes d.name).length) = false := by
    rw [List.any_eq_false]
    intro d hd
    obtain ⟨km, hkm, rfl⟩ := List.mem_map.mp hd
    have hname : (f km).name = if km.2.isDirectory then km.1.text ++ "/" else km.1.text :=
      congrArg Zip.Entry.name (draft_ok (hf km hkm))
    have hslash : (Text.bytes "/").length = 1 := by decide
    have hlength := hshort km hkm
    have hfits : (Text.bytes (f km).name).length ≤ 65535 := by
      rw [hname]
      split
      · rw [Text.bytes_append, List.length_append, hslash]
        omega
      · omega
    simpa using hfits
  have hwrite : ∃ b, Zip.write (t.members.map f) = .ok b := by
    unfold Zip.write
    rw [hfit]
    exact ⟨_, rfl⟩
  obtain ⟨b, hb⟩ := hwrite
  refine ⟨b, ?_⟩
  unfold encode
  rw [hdrafts]
  change (Zip.write (t.members.map f)).mapError _ = _
  rw [hb]
  rfl

/-- What is read of what was written for the image of a directory is its image too, if no file's
name there ends in a backslash. -/
theorem decode_mirrors (hw : t.WellFormed) (ht : t.Mirrors h loc) (hnames : h.PlainNames loc)
    {method : Compression} {b : ByteArray} (hb : t.encode method = .ok b)
    (hcodec : ∀ ds, t.drafts method = .ok ds → Zip.ReadsBack ds) (now : Instant) :
    ∃ t', decode now b = .ok t' ∧ t'.WellFormed ∧ t'.Mirrors h loc := by
  have hplain : ∀ km ∈ t.members, PlainName km.1 km.2 := by
    rintro ⟨k, content, times⟩ hkm hfile
    cases content with
    | directory => cases hfile
    | file data =>
      have hfind := hw.get?_of_mem hkm
      have hkind : h.kind? (loc ++ k.filenames) = some (.file data) := by
        rw [← ht.kinds, kind?, hfind]
        rfl
      exact getLast?_text hnames hkind
  refine ⟨_, decode_written hw hplain hb hcodec now,
    wellFormed_of_order hw (keys_restoredMembers t.members), ?_, ht.names⟩
  intro k
  rw [← ht.kinds, kind?, kind?]
  by_cases hk : k = []
  · subst hk
    rfl
  · rw [find?_of_ne_nil _ hk, find?_of_ne_nil _ hk, get?_restoredMembers, Option.map_map]
    rfl

end Tree

end ZipMount
