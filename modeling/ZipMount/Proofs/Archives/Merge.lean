import ZipMount.Proofs.Archives.Destination
import ZipMount.Proofs.Archives.Entry
import ZipMount.Proofs.Tree.Overlay
import ZipMount.Proofs.Tree.Reachable

namespace ZipMount

open MemberKey

/-- A directory in one open archive, and a place for it in another one that can be written. The
members of the first are as those of every mount are (`Tree.Reachable.wellFormed`), and each is in a
directory. -/
structure World.Merging (w : World) (i j : MountId) (source target : Mount) (s t : MemberKey) :
    Prop where
  distinct : i.number ≠ j.number
  opened : w.openMount i = .ok source
  writable : w.writableMount j = .ok target
  wellFormed : source.tree.WellFormed
  parents : ∀ k ∈ source.tree.order, ∃ m, source.tree.find? (parent k) = some m ∧
    m.content = .directory
  source_canonical : Canonical s
  target_canonical : Canonical t
  directory : ∃ m, source.tree.find? s = some m ∧ m.content = .directory
  place : t = [] ∨ ∃ m, target.tree.find? (parent t) = some m ∧ m.content = .directory

/-- A world with the files and archives of another, save that an image is over the members of one
mount. -/
structure World.Merged (w : World) (j : MountId) (target : Mount) (o : Outline) (w' : World) :
    Prop where
  host : w'.host = w.host
  others : ∀ n, n ≠ j.number → w'.mounts[n]? = w.mounts[n]?
  mount : ∃ tree dirty, w'.mount? j = some { target with tree := tree, dirty := dirty } ∧
    target.tree.Overlaid o tree

namespace World.Merged

variable {w v : World} {i j : MountId} {source target : Mount} {o o' : Outline}

theorem refl (hj : w.writableMount j = .ok target) : w.Merged j target [] w :=
  ⟨rfl, fun _ _ => rfl, target.tree, target.dirty, (writableMount_ok.mp hj).1,
    Tree.overlaid_nil target.tree⟩

/-- The target can still be written. -/
theorem writableMount (h : w.Merged j target o v) (hj : w.writableMount j = .ok target) :
    ∃ tree dirty, v.writableMount j = .ok { target with tree := tree, dirty := dirty } ∧
      target.tree.Overlaid o tree := by
  obtain ⟨-, hopen, hwritable⟩ := writableMount_ok.mp hj
  obtain ⟨tree, dirty, hmount, hover⟩ := h.mount
  exact ⟨tree, dirty, writableMount_ok.mpr ⟨hmount, hopen, hwritable⟩, hover⟩

/-- Another mount is as it was. -/
theorem openMount (h : w.Merged j target o v) (hij : i.number ≠ j.number) :
    v.openMount i = w.openMount i := by
  rw [World.openMount, World.openMount, World.mount?, World.mount?, h.others _ hij]

/-- Nothing but the image changed. -/
theorem congr (h : w.Merged j target o v) {tree : Tree} {dirty : Bool}
    (hm : v.mount? j = some { target with tree := tree, dirty := dirty })
    (ho : target.tree.Overlaid o' tree) : w.Merged j target o' v :=
  ⟨h.host, h.others, tree, dirty, hm, ho⟩

/-- The image changed with the members. -/
theorem setTree (h : w.Merged j target o v) {tree tree' : Tree} {dirty : Bool}
    (hm : v.mount? j = some { target with tree := tree, dirty := dirty })
    (ho : target.tree.Overlaid o' tree') :
    w.Merged j target o' (v.tick.setTree j { target with tree := tree, dirty := dirty } tree') := by
  have hmt : v.tick.mount? j = some { target with tree := tree, dirty := dirty } := hm
  refine ⟨h.host, ?_, tree', true, ?_, ho⟩
  · intro n hn
    change (v.mounts.set j.number _)[n]? = _
    rw [List.getElem?_set_ne (Ne.symm hn)]
    exact h.others n hn
  · unfold World.setTree
    rw [World.mount?_setMount hmt, if_pos rfl]

end World.Merged

namespace Archives

variable {w v : World} {i j : MountId} {source target : Mount} {s t : MemberKey}

/-- One entry is put over the members of a mount, or refused. -/
theorem copyEntry_merges {o : Outline} (hj : w.writableMount j = .ok target)
    (hv : w.Merged j target o v) {p : Path} {c : Content} (hp : p.content? v = some c)
    {k : MemberKey} (hk : Canonical k) (hnew : k ∉ o.keys)
    (hparent : ∀ tree, target.tree.Overlaid o tree → tree.checkParent k = .ok ()) :
    match target.tree.refusal? k c with
    | none => ∃ v', copyEntry p (.ofKey j k) v = (.ok (), v') ∧
        w.Merged j target (o ++ [(k, c)]) v'
    | some r =>
      copyEntry p (.ofKey j k) v = (.error (.error (r.error k.pathname.display)), v) := by
  obtain ⟨tree, dirty, hwritable, hover⟩ := hv.writableMount hj
  have hmount := (World.writableMount_ok.mp hwritable).1
  have hsame : tree.find? k = target.tree.find? k := hover.others k hnew
  have hroot : target.tree.find? k ≠ some ⟨.directory, target.tree.root⟩ → k ≠ [] := by
    rintro h rfl
    exact h rfl
  unfold Tree.refusal?
  cases c with
  | directory =>
    rw [copyEntry_directory hp, Path.ensureDirectory_ofKey hwritable hk, hsame, hparent tree hover]
    cases hf : target.tree.find? k with
    | none =>
      have hne := hroot (by simp [hf])
      exact ⟨_, rfl, hv.setTree hmount (hover.concat_insert hnew hne rfl fun _ => hf)⟩
    | some m =>
      obtain ⟨content, times⟩ := m
      cases content with
      | directory => exact ⟨v, rfl, hv.congr hmount (hover.concat_present hnew hf rfl)⟩
      | file data => rfl
  | file data =>
    rw [copyEntry_file hp, Path.replace_ofKey hwritable hk, hsame, hparent tree hover]
    cases hf : target.tree.find? k with
    | none =>
      have hne := hroot (by simp [hf])
      exact ⟨_, rfl, hv.setTree hmount (hover.concat_insert hnew hne rfl nofun)⟩
    | some m =>
      obtain ⟨content, times⟩ := m
      cases content with
      | directory => rfl
      | file old =>
        have hne := hroot (by simp [hf])
        exact ⟨_, rfl, hv.setTree hmount (hover.concat_insert hnew hne rfl nofun)⟩

def visited (source : Mount) (s : MemberKey) (order : WalkOrder) : List MemberKey :=
  source.tree.preorder order (source.tree.height - s.length) s

theorem mem_visited (h : w.Merging i j source target s t) {order : WalkOrder} {k : MemberKey}
    (hk : k ∈ visited source s order) :
    ∃ r m, k = s ++ r ∧ Canonical r ∧ source.tree.find? k = some m := by
  have hmem := (h.wellFormed.mem_preorder order (by omega)).mp hk
  obtain ⟨r, rfl⟩ := Tree.prefix_of_mem_preorder hk
  rcases hmem with hself | ⟨horder, -⟩
  · obtain ⟨m, hm, -⟩ := h.directory
    have hr := List.append_right_eq_self.mp hself
    subst hr
    rw [List.append_nil]
    exact ⟨[], m, (List.append_nil s).symm, canonical_nil, hm⟩
  · obtain ⟨m, hm⟩ := Tree.exists_find_of_mem (h.wellFormed.ne_nil _ horder) horder
    have hcanonical := h.wellFormed.canonical _ horder
    exact ⟨r, m, rfl, fun x hx => hcanonical x (List.mem_append_right s hx), hm⟩

/-- Where an entry goes there is a directory for it: it was copied before, or is there for the
source itself. -/
theorem checkParent_of_visited (h : w.Merging i j source target s t) {order : WalkOrder}
    {done rest : List MemberKey} {r : MemberKey}
    (hks : visited source s order = done ++ (s ++ r) :: rest) {tree : Tree}
    (hover : target.tree.Overlaid (source.tree.image s t done) tree) :
    tree.checkParent (t ++ r) = .ok () := by
  by_cases hr : r = []
  · subst hr
    rw [List.append_nil]
    by_cases ht : t = []
    · subst ht
      exact Tree.checkParent_of_directory (k := []) rfl rfl
    · obtain ⟨m, hm, hdirectory⟩ := h.place.resolve_left ht
      refine Tree.checkParent_of_directory ((hover.others _ ?_).trans hm) hdirectory
      intro hmem
      have hlength := (Tree.prefix_of_mem_keys_image hmem).length_le
      have hlt := parent_length_lt ht
      omega
  · have hself : s ++ r ≠ s := fun heq => hr (List.append_right_eq_self.mp heq)
    have hbefore := h.wellFormed.parent_before (by omega) hks hself
    have hmem : s ++ r ∈ visited source s order := by
      rw [hks]
      exact List.mem_append_right done List.mem_cons_self
    have horder := ((h.wellFormed.mem_preorder order (by omega)).mp hmem).resolve_left hself
    obtain ⟨m, hm, hdirectory⟩ := h.parents _ horder.1
    have hsource : parent (s ++ r) = s ++ parent r := List.dropLast_append_of_ne_nil hr
    have htarget : parent (t ++ r) = t ++ parent r := List.dropLast_append_of_ne_nil hr
    rw [hsource] at hbefore hm
    have himage := Tree.mem_image (t := t) hbefore hm
    rw [hdirectory] at himage
    obtain ⟨m', hm', hdirectory', -⟩ := hover.directory _ himage
    rw [← htarget] at hm'
    exact Tree.checkParent_of_directory hm' hdirectory'

/-- An entry of the walk is put over the members of the target, or refused. -/
theorem copyBeneath_merges (h : w.Merging i j source target s t) {order : WalkOrder}
    {done rest : List MemberKey} {k : MemberKey}
    (hks : visited source s order = done ++ k :: rest)
    (hv : w.Merged j target (source.tree.image s t done) v) :
    match source.tree.conflict? target.tree s t k with
    | none => ∃ v', copyBeneath (.ofKey i s) (.ofKey j t) (.ofKey i k) v = (.ok (), v') ∧
        w.Merged j target (source.tree.image s t (done ++ [k])) v'
    | some r => ∃ e, copyBeneath (.ofKey i s) (.ofKey j t) (.ofKey i k) v = (.error (.error e), v) ∧
        e.rootCause = r.error (pathname (t ++ k.drop s.length)).display := by
  have hmem : k ∈ visited source s order := by
    rw [hks]
    exact List.mem_append_right done List.mem_cons_self
  obtain ⟨r, m, rfl, hr, hm⟩ := mem_visited h hmem
  have hcanonical := canonical_append h.source_canonical hr
  have hopen : v.openMount i = .ok source := (hv.openMount h.distinct).trans h.opened
  have hcontent : (Path.ofKey i (s ++ r)).content? v = some m.content :=
    (Path.content?_ofKey hcanonical).mpr ⟨source, m, hopen, hm, rfl⟩
  have hnew : t ++ r ∉ (source.tree.image s t done).keys := by
    intro hkey
    have hforward := h.wellFormed.forward_preorder order (source.tree.height - s.length) s
    rw [visited] at hks
    rw [hks, List.pairwise_append] at hforward
    have hdone : ∀ k ∈ done, s <+: k := by
      intro k hk
      have hmem : k ∈ source.tree.preorder order (source.tree.height - s.length) s := by
        rw [hks]
        exact List.mem_append_left _ hk
      exact Tree.prefix_of_mem_preorder hmem
    have hin := Tree.mem_of_mem_keys_image hdone hkey
    exact hforward.2.2 _ hin _ List.mem_cons_self List.prefix_rfl
  have hentry := copyEntry_merges h.writable hv hcontent (canonical_append h.target_canonical hr)
    hnew fun _ hover => checkParent_of_visited h hks hover
  have hdestination := destination_member (i := i) (j := j) h.source_canonical h.target_canonical hr
  rw [copyBeneath_of_destination hdestination, Tree.conflict?, hm, Option.bind_some,
    List.drop_left, Tree.image_append, Tree.image_singleton hm]
  cases hrefusal : target.tree.refusal? (t ++ r) m.content with
  | none =>
    rw [hrefusal] at hentry
    obtain ⟨v', hcopy, hmerged⟩ := hentry
    exact ⟨v', Action.noted_of_ok hcopy _, hmerged⟩
  | some r' =>
    rw [hrefusal] at hentry
    refine ⟨_, Action.noted_of_error hentry _, ?_⟩
    rw [Error.rootCause_context]
    cases r' <;> rfl

/-- A stretch of the walk without a conflict. -/
theorem forM_copyBeneath_merges (h : w.Merging i j source target s t) {order : WalkOrder}
    {done now rest : List MemberKey} (hks : visited source s order = done ++ now ++ rest)
    (hnow : ∀ k ∈ now, source.tree.conflict? target.tree s t k = none)
    (hv : w.Merged j target (source.tree.image s t done) v) :
    ∃ v', (now.map (Path.ofKey i)).forM (copyBeneath (.ofKey i s) (.ofKey j t)) v = (.ok (), v') ∧
      w.Merged j target (source.tree.image s t (done ++ now)) v' := by
  induction now generalizing done v with
  | nil =>
    rw [List.append_nil]
    exact ⟨v, rfl, hv⟩
  | cons k now ih =>
    have hfirst := copyBeneath_merges h (by simpa using hks) hv
    rw [hnow k List.mem_cons_self] at hfirst
    obtain ⟨v', hcopy, hmerged⟩ := hfirst
    have hks' : visited source s order = (done ++ [k]) ++ now ++ rest := by simpa using hks
    obtain ⟨v'', hrest, hlast⟩ := ih hks' (fun x hx => hnow x (List.mem_cons_of_mem k hx)) hmerged
    refine ⟨v'', ?_, by simpa using hlast⟩
    rw [List.map_cons, Action.forM_cons, Action.bind_of_ok hcopy]
    exact hrest

/-- What the walk of the source finds. -/
theorem walk_eq (h : w.Merging i j source target s t) (order : WalkOrder) :
    (Path.ofKey i s).walk order w = .ok ((visited source s order).map (Path.ofKey i)) := by
  obtain ⟨m, hm, -⟩ := h.directory
  exact Path.walk_ofKey h.opened h.source_canonical hm order

/-- Copying a directory of one archive to a place in another goes through the walk of it. If no
entry is a directory where the target has a file, or a file where it has a directory, it succeeds,
and the image of the directory is over the target's members. Else it fails at the first such entry,
for that reason, and the image of the entries before it is over the target's members. Nothing else
changes. -/
theorem copyTree_merges (h : w.Merging i j source target s t) (order : WalkOrder) :
    (Path.ofKey i s).walk order w = .ok ((visited source s order).map (Path.ofKey i)) ∧
      ((∀ k ∈ visited source s order, source.tree.conflict? target.tree s t k = none) →
        ∃ w', copyTree (.ofKey i s) (.ofKey j t) order w = (.ok (), w') ∧
          w.Merged j target (source.tree.image s t (visited source s order)) w') ∧
      ∀ before k after r, visited source s order = before ++ k :: after →
        (∀ b ∈ before, source.tree.conflict? target.tree s t b = none) →
        source.tree.conflict? target.tree s t k = some r →
        ∃ e w', copyTree (.ofKey i s) (.ofKey j t) order w = (.error (.error e), w') ∧
          e.rootCause = r.error (pathname (t ++ k.drop s.length)).display ∧
          w.Merged j target (source.tree.image s t before) w' := by
  have hwalk := walk_eq h order
  have hcopy : copyTree (.ofKey i s) (.ofKey j t) order w =
      ((visited source s order).map (Path.ofKey i)).forM
        (copyBeneath (.ofKey i s) (.ofKey j t)) w := by
    unfold copyTree
    rw [Action.bind_of_ok (Action.ask_of_ok hwalk)]
  have hstart : w.Merged j target (source.tree.image s t []) w := World.Merged.refl h.writable
  refine ⟨hwalk, ?_, ?_⟩
  · intro hnone
    have hall : visited source s order = [] ++ visited source s order ++ [] := by simp
    rw [hcopy]
    exact forM_copyBeneath_merges h hall hnone hstart
  · intro before k after r hks hnone hconflict
    have hsplit : visited source s order = [] ++ before ++ k :: after := hks
    obtain ⟨v, hbefore, hmerged⟩ := forM_copyBeneath_merges h hsplit hnone hstart
    have hentry := copyBeneath_merges h hks hmerged
    rw [hconflict] at hentry
    obtain ⟨e, hfail, hcause⟩ := hentry
    refine ⟨e, v, ?_, hcause, hmerged⟩
    rw [hcopy, hks, List.map_append, Action.forM_append hbefore, List.map_cons, Action.forM_cons,
      Action.bind_of_error hfail]

def holding (members : Table MemberKey Member) : Mount where
  backing := .host (.ofString "/a.zip")
  registered := none
  readOnly := false
  options := .unset
  isOpen := true
  tree := ⟨.all .epoch, members⟩
  dirty := false

/-- A directory with a file and a directory in it. -/
def sourceMembers : Table MemberKey Member :=
  [(["d"], .directory .epoch), (["d", "f"], .file (contents [1]) .epoch),
    (["d", "g"], .directory .epoch)]

def targetMembers : Table MemberKey Member := [(["f"], .file (contents [2]) .epoch)]

def twoArchives : World :=
  { World.start (.empty .epoch) (fun _ => .epoch) "" with
    mounts := [holding sourceMembers, holding targetMembers] }

theorem copyTree_merges_twoArchives :
    twoArchives.Merging ⟨0, 0⟩ ⟨1, 0⟩ (holding sourceMembers) (holding targetMembers) ["d"] [] ∧
      ∃ w', copyTree (.ofKey ⟨0, 0⟩ ["d"]) (.ofKey ⟨1, 0⟩ []) .natural twoArchives = (.ok (), w') ∧
        twoArchives.Merged ⟨1, 0⟩ (holding targetMembers)
          [([], .directory), (["f"], .file (contents [1])), (["g"], .directory)] w' := by
  have hsource : (holding sourceMembers).tree.WellFormed :=
    ⟨by decide, by decide, by decide, by decide, by decide⟩
  have hparents : ∀ k ∈ (holding sourceMembers).tree.order,
      ∃ m, (holding sourceMembers).tree.find? (parent k) = some m ∧ m.content = .directory := by
    intro k hk
    have hcases : k = ["d"] ∨ k = ["d", "f"] ∨ k = ["d", "g"] := by
      simpa [holding, sourceMembers, Tree.order, Table.keys] using hk
    rcases hcases with rfl | rfl | rfl <;> exact ⟨_, rfl, rfl⟩
  have h : twoArchives.Merging ⟨0, 0⟩ ⟨1, 0⟩ (holding sourceMembers) (holding targetMembers)
      ["d"] [] :=
    ⟨by decide, rfl, rfl, hsource, hparents, by decide, by decide, ⟨_, rfl, rfl⟩, Or.inl rfl⟩
  have hnone : ∀ k ∈ visited (holding sourceMembers) ["d"] .natural,
      (holding sourceMembers).tree.conflict? (holding targetMembers).tree ["d"] [] k = none := by
    decide
  have himage : (holding sourceMembers).tree.image ["d"] []
      (visited (holding sourceMembers) ["d"] .natural) =
        [([], .directory), (["f"], .file (contents [1])), (["g"], .directory)] := by
    decide
  obtain ⟨w', hcopy, hmerged⟩ := (copyTree_merges h .natural).2.1 hnone
  rw [himage] at hmerged
  exact ⟨h, w', hcopy, hmerged⟩

end Archives

end ZipMount
