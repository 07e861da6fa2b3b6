import ZipMount.Files
import ZipMount.Proofs.Host.Walk
import ZipMount.Proofs.Tree.Walk
import ZipMount.Proofs.World

namespace ZipMount

open MemberKey

/-- What can be read of an entry of the host. -/
def HostKind.content? : HostKind → Option Content
  | .directory => some .directory
  | .file data => some (.file data)
  | .link _ => none

namespace Path

/-- What the path leads to, its times apart. -/
def content? (p : Path) (w : World) : Option Content :=
  match p.attributes w with
  | .ok a => if a.isDirectory then some .directory else (p.read w).toOption.map .file
  | .error _ => none

/-- The path that names lead to from this one. In an archive names are texts. -/
def below? : Path → List Filename → Option Path
  | .host p, names => some (.host (p.under names))
  | .member id q, names =>
    (names.mapM Text.ofBytes?).map fun k => .ofKey id (.ofPathname q ++ k)
  | .proxy .., _ => none

/-- What some names lead to from the path. -/
def holds (s : Path) (w : World) (names : List Filename) : Option Content :=
  (s.below? names).bind fun p => p.content? w

/-- A listing of all that a path holds, with the paths that a walk finds. -/
structure Covers (s : Path) (w : World) (found : List Path) (l : Listing) : Prop where
  sorted : l.Sorted
  names : ∀ r ∈ l, ∀ n ∈ r, IsSegment n
  complete : ∀ r : List Filename, (∀ n ∈ r, IsSegment n) → (s.holds w r).isSome → r ∈ l
  paths : l.map s.below? = found.map some

theorem content?_directory {p : Path} {w : World} :
    p.content? w = some .directory ↔ p.isDirectory w = true := by
  unfold content? isDirectory
  cases p.attributes w with
  | error e => simp
  | ok a =>
    cases ha : a.isDirectory with
    | true => simp [ha]
    | false => simp [ha]

theorem content?_host {w : World} {p : Pathname} {c : Content} :
    (host p).content? w = some c ↔
      p.hasZero = false ∧ ∃ l k, w.host.At p l k ∧ k.content? = some c := by
  have hattributes : (host p).attributes w = Host.answer p (w.host.stat p) := rfl
  have hread : (host p).read w = Host.answer p (w.host.read p) := rfl
  unfold content?
  rw [hattributes, hread]
  unfold Host.stat Host.read Host.onPath
  cases hz : p.hasZero with
  | true =>
    constructor
    · intro h
      cases h
    · rintro ⟨h, -⟩
      cases h
  | false =>
    simp only [Bool.false_eq_true, if_false, true_and]
    cases hf : w.host.find .target p with
    | error e =>
      constructor
      · intro h
        cases h
      · rintro ⟨l, k, hat, -⟩
        obtain ⟨node, hfound, -⟩ := Host.find_target_iff.mpr hat
        rw [hf] at hfound
        cases hfound
    | ok found =>
      obtain ⟨l, node⟩ := found
      have hat := Host.at_of_find hf
      have hkind : (∃ l k, w.host.At p l k ∧ k.content? = some c) ↔
          node.kind.content? = some c := by
        constructor
        · rintro ⟨l', k, hat', hk⟩
          obtain ⟨-, rfl⟩ := hat.unique hat'
          exact hk
        · exact fun hk => ⟨l, _, hat, hk⟩
      rw [hkind]
      cases node <;> exact Iff.rfl

theorem content?_member {w : World} {id : MountId} {q : Pathname} {c : Content} :
    (member id q).content? w = some c ↔
      ∃ m x, w.openMount id = .ok m ∧ m.tree.find? (ofPathname q) = some x ∧ x.content = c := by
  have hattributes : (member id q).attributes w = (do
      let m ← w.openMount id
      pure (← Mount.answer q (m.tree.find (ofPathname q))).attributes) := rfl
  have hread : (member id q).read w = (do
      let m ← w.openMount id
      Mount.answer q (m.tree.read (ofPathname q))) := rfl
  unfold content?
  rw [hattributes, hread]
  cases hm : w.openMount id with
  | error e =>
    constructor
    · intro h
      cases h
    · rintro ⟨m, x, hm', -⟩
      cases hm'
  | ok m =>
    change (match (Mount.answer q (m.tree.find (ofPathname q)) >>= fun x => pure x.attributes) with
      | .ok a => if a.isDirectory then some Content.directory else
        (Mount.answer q (m.tree.read (ofPathname q))).toOption.map .file
      | .error _ => none) = some c ↔ _
    rw [Tree.find_eq, Tree.read_eq]
    cases hx : m.tree.find? (ofPathname q) with
    | none =>
      constructor
      · intro h
        cases h
      · rintro ⟨m', x, hm', hx', -⟩
        cases hm'
        rw [hx] at hx'
        cases hx'
    | some x =>
      obtain ⟨content, times⟩ := x
      have hcontent : ∀ c', (∃ m' x, Except.ok m = (Except.ok m' : Except Error Mount) ∧
          m'.tree.find? (ofPathname q) = some x ∧ x.content = c') ↔ content = c' := by
        intro c'
        constructor
        · rintro ⟨m', x, hm', hx', rfl⟩
          cases hm'
          rw [hx] at hx'
          cases hx'
          rfl
        · rintro rfl
          exact ⟨m, _, rfl, hx, rfl⟩
      rw [hcontent]
      cases content with
      | directory => exact Option.some_inj
      | file data => exact Option.some_inj

theorem content?_ofKey {w : World} {id : MountId} {k : MemberKey} (hk : Canonical k)
    {c : Content} : (ofKey id k).content? w = some c ↔
      ∃ m x, w.openMount id = .ok m ∧ m.tree.find? k = some x ∧ x.content = c := by
  rw [ofKey, content?_member, ofPathname_pathname hk]

/-- Neither times nor the order in which entries came make a difference to what a directory of the
host holds. -/
theorem holds_of_kind? {w w' : World} (hk : ∀ l, w.host.kind? l = w'.host.kind? l)
    (hcwd : w.host.workingDirectory = w'.host.workingDirectory) (p : Pathname)
    (r : List Filename) : (host p).holds w r = (host p).holds w' r := by
  apply Option.ext
  intro c
  change (host (p.under r)).content? w = some c ↔ (host (p.under r)).content? w' = some c
  rw [content?_host, content?_host]
  have hto : ∀ l k, w.host.kind? l = some k → w'.host.kind? l = some k := by
    intro l k h
    rw [← hk]
    exact h
  have hfrom : ∀ l k, w'.host.kind? l = some k → w.host.kind? l = some k := by
    intro l k h
    rw [hk]
    exact h
  constructor
  · rintro ⟨hz, l, k, hat, hc⟩
    exact ⟨hz, l, k, hat.mono hto hcwd.symm, hc⟩
  · rintro ⟨hz, l, k, hat, hc⟩
    exact ⟨hz, l, k, hat.mono hfrom hcwd, hc⟩

theorem mapM_ofBytes? {r : List Filename} {k : MemberKey} :
    r.mapM Text.ofBytes? = some k ↔ r = k.filenames := by
  constructor
  · intro h
    induction r generalizing k with
    | nil =>
      cases h
      rfl
    | cons n r ih =>
      rw [List.mapM_cons] at h
      cases hn : Text.ofBytes? n with
      | none => rw [hn] at h; cases h
      | some s =>
        rw [hn] at h
        cases hr : r.mapM Text.ofBytes? with
        | none => rw [hr] at h; cases h
        | some k' =>
          rw [hr] at h
          cases h
          rw [ih hr, ← Text.bytes_of_ofBytes? hn]
          rfl
  · rintro rfl
    induction k with
    | nil => rfl
    | cons s k ih =>
      change (Text.bytes s :: filenames k).mapM Text.ofBytes? = _
      rw [List.mapM_cons, Text.ofBytes?_bytes, ih]
      rfl

theorem below?_member {id : MountId} {q : Pathname} {r : List Filename} {p : Path} :
    (member id q).below? r = some p ↔
      ∃ k : MemberKey, r = k.filenames ∧ p = ofKey id (ofPathname q ++ k) := by
  change (r.mapM Text.ofBytes?).map (fun k => ofKey id (ofPathname q ++ k)) = some p ↔ _
  rw [Option.map_eq_some_iff]
  constructor
  · rintro ⟨k, hk, rfl⟩
    exact ⟨k, mapM_ofBytes?.mp hk, rfl⟩
  · rintro ⟨k, hk, rfl⟩
    exact ⟨k, mapM_ofBytes?.mpr hk, rfl⟩

theorem ne_nil_of_holds {w : World} {p : Pathname} {r : List Filename} {c : Content}
    (h : (host p).holds w r = some c) (hr : r = []) : p.bytes ≠ [] := by
  subst hr
  obtain ⟨-, l, k, hat, -⟩ := content?_host.mp h
  exact hat.ne_nil

/-- What no names lead to is what the path itself leads to. -/
theorem content?_of_holds_nil {s : Path} {w : World} {c : Content} (h : s.holds w [] = some c) :
    s.content? w = some c := by
  obtain ⟨p, hp, hcontent⟩ := Option.bind_eq_some_iff.mp h
  cases s with
  | proxy d fs => cases hp
  | host q =>
    cases hp
    exact hcontent
  | member id q =>
    obtain ⟨k, hk, rfl⟩ := below?_member.mp hp
    have hnil : k = [] := List.map_eq_nil_iff.mp hk.symm
    have hkey : Canonical (ofPathname q) := canonical_ofText _
    rw [hnil, List.append_nil, content?_ofKey hkey] at hcontent
    exact content?_member.mpr hcontent

/-- What is left of a path beneath a source names the key that the names come to. -/
theorem ofText_relativeTo {s p : Path} (hs : s.pathname.bytes ≠ [] ∨ ∃ id q, s = member id q)
    {r : List Filename} (hr : ∀ n ∈ r, IsSegment n) (hp : s.below? r = some p) {text : String}
    (h : p.relativeTo s = .ok text) : ofText text = ofNames r := by
  unfold relativeTo at h
  split at h
  · next steps hsteps =>
    cases h
    cases s with
    | proxy d fs => cases hp
    | host q =>
      cases hp
      have hq : q.bytes ≠ [] := by
        rcases hs with hs | ⟨id, q', hs⟩
        · exact hs
        · cases hs
      have hunder : (q.under r).relativeTo? q = some steps := hsteps
      rw [Pathname.relativeTo?_under hq hr] at hunder
      cases hunder
      rfl
    | member id q =>
      obtain ⟨k, rfl, rfl⟩ := below?_member.mp hp
      exact ofText_relative (canonical_of_isSegment hr) hsteps
  · cases h

theorem walk_host {w : World} {p : Pathname} {found : List Path}
    (hf : (host p).walk .sorted w = .ok found) :
    ∃ ps, w.host.walk .sorted p = .ok ps ∧ found = ps.map host := by
  have hwalk : (host p).walk .sorted w =
      ((w.host.walk .sorted p).mapError Host.WalkFault.error >>= fun ps => pure (ps.map host)) :=
    rfl
  rw [hwalk] at hf
  obtain ⟨ps, hps, hf⟩ := bind_eq_ok hf
  cases hf
  exact ⟨ps, mapError_eq_ok hps, rfl⟩

theorem walk_member {w : World} {id : MountId} {q : Pathname} {order : WalkOrder}
    {found : List Path} (hf : (member id q).walk order w = .ok found) :
    ∃ m, w.openMount id = .ok m ∧ found = (m.tree.preorder order
      (m.tree.height - (ofPathname q).length) (ofPathname q)).map (ofKey id) := by
  have hwalk : (member id q).walk order w = (do
      let m ← w.openMount id
      pure ((← Mount.answer q (m.tree.walk order (ofPathname q))).map (ofKey id))) := rfl
  rw [hwalk] at hf
  obtain ⟨m, hm, hf⟩ := bind_eq_ok hf
  obtain ⟨ks, hks, hf⟩ := bind_eq_ok hf
  have hks := mapError_eq_ok hks
  rw [Tree.walk_eq] at hks
  cases hf
  cases hx : m.tree.find? (ofPathname q) with
  | none => rw [hx] at hks; cases hks
  | some x =>
    rw [hx] at hks
    cases hks
    exact ⟨m, hm, rfl⟩

theorem covers_of_walk_host {w : World} (hw : w.WellFormed) {p : Pathname} (hp : p.bytes ≠ [])
    {found : List Path} (hf : (host p).walk .sorted w = .ok found) :
    ∃ l, (host p).Covers w found l := by
  obtain ⟨ps, hps, rfl⟩ := walk_host hf
  obtain ⟨l, rfl, hl⟩ := Host.walk_listing hw.host hp hps
  refine ⟨l, hl.sorted, hl.names, ?_, ?_⟩
  · intro r hr hholds
    obtain ⟨c, hc⟩ := Option.isSome_iff_exists.mp hholds
    obtain ⟨-, loc, k, hat, -⟩ := content?_host.mp hc
    exact hl.complete r hr ⟨loc, k, hat⟩
  · rw [List.map_map, List.map_map]
    rfl

theorem covers_of_walk_member {w : World} (hw : w.WellFormed) {id : MountId} {q : Pathname}
    {found : List Path} (hf : (member id q).walk .sorted w = .ok found) :
    ∃ l, (member id q).Covers w found l := by
  obtain ⟨m, hm, rfl⟩ := walk_member hf
  have hmem : m ∈ w.mounts := List.mem_of_getElem? (World.openMount_ok.mp hm).1
  have htree := hw.trees m hmem
  have hkey : Canonical (ofPathname q) := canonical_ofText _
  let steps := m.tree.height - (ofPathname q).length
  obtain ⟨ks, hks, hsorted⟩ := htree.sorted_preorder steps (ofPathname q)
  have hpre : ∀ j, j ∈ m.tree.preorder .sorted steps (ofPathname q) ↔
      j = ofPathname q ∨ (j ∈ m.tree.order ∧ ofPathname q <+: j) := by
    intro j
    exact htree.mem_preorder .sorted (by omega)
  have hin : ∀ k, k ∈ ks ↔ ofPathname q ++ k ∈ m.tree.preorder .sorted steps (ofPathname q) := by
    intro k
    rw [hks, List.mem_map]
    constructor
    · exact fun hk => ⟨k, hk, rfl⟩
    · rintro ⟨k', hk', hsame⟩
      rw [← List.append_cancel_left hsame]
      exact hk'
  refine ⟨ks.map filenames, hsorted, ?_, ?_, ?_⟩
  · intro r hr n hn
    obtain ⟨k, hk, rfl⟩ := List.mem_map.mp hr
    rcases (hpre _).mp ((hin k).mp hk) with hself | ⟨horder, -⟩
    · rw [List.append_right_eq_self.mp hself] at hn
      cases hn
    · apply isSegment_of_mem (k := k) _ n hn
      intro s hs
      exact htree.canonical _ horder s (List.mem_append_right _ hs)
  · intro r hr hholds
    obtain ⟨c, hc⟩ := Option.isSome_iff_exists.mp hholds
    obtain ⟨p, hp, hcontent⟩ := Option.bind_eq_some_iff.mp hc
    obtain ⟨k, rfl, rfl⟩ := below?_member.mp hp
    have hk : Canonical k := canonical_of_isSegment hr
    obtain ⟨m', x, hm', hx, -⟩ := (content?_ofKey (canonical_append hkey hk)).mp hcontent
    rw [hm] at hm'
    cases hm'
    apply List.mem_map_of_mem
    apply (hin k).mpr
    apply (hpre _).mpr
    by_cases hnil : ofPathname q ++ k = []
    · have hroot := (List.append_eq_nil_iff.mp hnil).1
      exact Or.inl (hnil.trans hroot.symm)
    · exact Or.inr ⟨Tree.mem_order_of_find hnil hx, List.prefix_append _ _⟩
  · change _ = ((m.tree.preorder .sorted steps (ofPathname q)).map (ofKey id)).map some
    rw [hks, List.map_map, List.map_map, List.map_map]
    apply List.map_congr_left
    intro k _
    exact below?_member.mpr ⟨k, rfl, rfl⟩

/-- A walk by name that succeeds lists all that a directory holds. -/
theorem covers_of_walk {s : Path} {w : World} (hw : w.WellFormed)
    (hd : s.holds w [] = some .directory) {found : List Path}
    (hf : s.walk .sorted w = .ok found) : ∃ l, s.Covers w found l := by
  cases s with
  | proxy d fs => cases hd
  | host p => exact covers_of_walk_host hw (ne_nil_of_holds hd rfl) hf
  | member id q => exact covers_of_walk_member hw hf

end Path

end ZipMount
