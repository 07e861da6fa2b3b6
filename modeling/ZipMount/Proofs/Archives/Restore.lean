import ZipMount.Proofs.Archives.Pack
import ZipMount.Proofs.Archives.Unpack

namespace ZipMount

open MemberKey

namespace Host

variable {h : Host} {p : Pathname} {l : Location}

/-- A path to a place where nothing is has a last name. -/
theorem Reaches.path_of_free (hr : h.Reaches p l) (hw : h.WellFormed) (hfree : h.kind? l = none) :
    p.bytes ≠ [] ∧ p.hasZero = false := by
  cases hr with
  | working =>
    rw [hw.working] at hfree
    cases hfree
  | there hat =>
    rw [hat.kind] at hfree
    cases hfree
  | new hq _ _ _ hzero =>
    have hlength := Pathname.length_parent hq
    exact ⟨List.ne_nil_of_length_pos (by omega), hzero⟩

end Host

namespace Archives

variable {w : World} {s a p : Pathname} {loc dir : Location} {n : Filename}

/-- The codec reads back what was written for the mount that comes next. -/
def ReadsBackNext (w w' : World) : Prop :=
  ∀ m ds, w'.mount? (w.nextMount installed) = some m → m.tree.drafts .deflated = .ok ds →
    Zip.ReadsBack ds

/-- The image of a directory fits beneath another path, if the paths there can be looked up. -/
theorem fits_of_mirrors {t : Tree} {h : Host} (hw : h.WellFormed) (hs : h.Plain s loc)
    (ht : t.Mirrors h loc)
    (hshort : ∀ r, h.kind? (loc ++ r) ≠ none → (p.under r).bytes.length < Host.pathLimit) :
    Fits t p := by
  refine ⟨?_, ?_, ?_⟩
  · intro k hk
    rw [ht.kinds] at hk
    exact hshort _ hk
  · intro k hk
    rw [ht.kinds] at hk
    exact hs.names _ hk
  · intro k hne hk
    rw [ht.kinds] at hk ⊢
    exact kind?_parent hw hne hk

/-- A directory of the host, without links, all of whose names are text and no file in which has a
name that ends in a backslash, is packed into a new archive outside it. The archive can be unpacked
to any place that is missing then and where the paths are short enough, and what is there then is
what is in the directory, and nothing else. -/
theorem unzip_zipTree (hw : w.host.WellFormed) (hs : w.host.Plain s loc)
    (htexts : w.host.TextNames loc) (hnames : w.host.PlainNames loc) (ha : w.Place a dir n)
    (hout : ¬ loc <+: dir ++ [n]) (hclock : ∀ i, (w.clock i).onCalendar = true)
    (hcodec : ReadsBackNext w (zipTree (.host s) a w).2) :
    ∃ w₁, zipTree (.host s) a w = (.ok (), w₁) ∧
      (∀ r, w₁.host.kind? (loc ++ r) = w.host.kind? (loc ++ r)) ∧
      ∀ p target, w₁.host.Reaches p target → w₁.host.kind? target = none →
        (∀ r, w.host.kind? (loc ++ r) ≠ none → (p.under r).bytes.length < Host.pathLimit) →
        ∃ w₂, unzip (.host a) (.host p) w₁ = (.ok (), w₂) ∧ w₂.host.At p target .directory ∧
          ∀ r, w₂.host.kind? (target ++ r) = w.host.kind? (loc ++ r) := by
  obtain ⟨h, now, w₁, m, b, hzip, hmade, hfree, hhost, hmount, hwf, hmirrors, hb⟩ :=
    zipTree_packs hw ha hs htexts hout hclock
  have hw₁ : w₁.host.WellFormed := by
    rw [hhost]
    exact hfree.wellFormed_add hmade.wellFormed now _
  have hat : w₁.host.At a (dir ++ [n]) (.file b) := by
    rw [hhost]
    exact hfree.at_add now (fun _ => HostKind.noConfusion) (Or.inr ha.slashless)
  have hout' : ¬ loc <+: dir := fun hpre => hout (hpre.trans (List.prefix_append dir [n]))
  have hsame : ∀ r, w₁.host.kind? (loc ++ r) = w.host.kind? (loc ++ r) := by
    intro r
    have hne : loc ++ r ≠ dir ++ [n] := fun heq => hout (heq ▸ List.prefix_append loc r)
    rw [hhost, Host.kind?_add _ now Host.Free.ne_root, if_neg hne, hmade.kind?_beneath hout']
  have hdrafts : ∀ ds, m.tree.drafts .deflated = .ok ds → Zip.ReadsBack ds := by
    rw [hzip] at hcodec
    exact fun ds hds => hcodec m ds hmount hds
  refine ⟨w₁, hzip, hsame, ?_⟩
  intro p target hr hmissing hshort
  obtain ⟨hne, hz⟩ := hr.path_of_free hw₁ hmissing
  -- when the archive is read is not known here: the clock is asked after the target was made
  have hdecode : ∀ now, ∃ t, Tree.decode now b = .ok t ∧ Fits t p := by
    intro now
    obtain ⟨t, ht, -, htree⟩ := Tree.decode_mirrors hwf hmirrors hnames hb hdrafts now
    exact ⟨t, ht, fits_of_mirrors hw hs htree hshort⟩
  obtain ⟨w₂, now', t, hunzip, ht, hthere, htree⟩ :=
    unzip_unpacks hw₁ hfree.noZero hat hdecode hr hmissing hne hz
  obtain ⟨t', ht', -, htree'⟩ := Tree.decode_mirrors hwf hmirrors hnames hb hdrafts now'
  rw [ht] at ht'
  cases ht'
  exact ⟨w₂, hunzip, hthere, htree'.kind?_eq htree⟩

/-- A host with a directory that has a directory and a file in it. -/
def mixedHost : Host :=
  ⟨[([[115]], .directory .epoch), ([[115], [100]], .directory .epoch),
    ([[115], [102]], .file (contents [120]) .epoch)], .epoch, []⟩

/-- A world with such a host, the clock of which stands still. -/
def mixedWorld : World := .start mixedHost (fun _ => .epoch) ""

/-- Packing that directory. -/
def mixedRun : Except Failure Unit × World :=
  zipTree (.host (.ofString "/s")) (.ofString "/a") mixedWorld

/-- What is written for it. -/
def mixedDrafts : List Zip.Draft :=
  ((mixedRun.2.mount? ⟨0, 0⟩).bind fun m => (m.tree.drafts .deflated).toOption).getD []

def mixedBytes : ByteArray := (Zip.write mixedDrafts).toOption.getD .empty

set_option maxRecDepth 30000 in
theorem read_mixedBytes : Zip.read mixedBytes = .ok (mixedDrafts.map fun d => .ok d.toEntry) := by
  decide +kernel

set_option maxRecDepth 30000 in
theorem missing_after_mixedRun : (mixedRun.2.host.kind? [[116]]).isNone = true := by
  decide +kernel

theorem readsBack_mixedRun : ReadsBackNext mixedWorld mixedRun.2 := by
  intro m ds hm hds b hb
  have hdrafts : mixedDrafts = ds := by
    have hm : mixedRun.2.mount? ⟨0, 0⟩ = some m := hm
    rw [mixedDrafts, hm, Option.bind_some, hds]
    rfl
  have hbytes : mixedBytes = b := by
    rw [mixedBytes, hdrafts, hb]
    rfl
  rw [← hdrafts, ← hbytes]
  exact read_mixedBytes

theorem mixedHost_wellFormed : mixedHost.WellFormed := by
  refine ⟨by decide, by decide, by decide, ?_, rfl⟩
  intro l hl
  have hkeys : mixedHost.entries.keys = [[[115]], [[115], [100]], [[115], [102]]] := rfl
  rw [hkeys] at hl
  simp only [List.mem_cons, List.not_mem_nil, or_false] at hl
  rcases hl with rfl | rfl | rfl <;> rfl

/-- What is beneath the directory. -/
theorem beneath_mixedHost {r : List Filename} (hr : mixedHost.kind? ([[115]] ++ r) ≠ none) :
    r = [] ∨ r = [[100]] ∨ r = [[102]] := by
  obtain ⟨k, hk⟩ := Option.ne_none_iff_exists'.mp hr
  have hkeys : mixedHost.entries.keys = [[[115]], [[115], [100]], [[115], [102]]] := rfl
  have hmem := Host.mem_keys_of_kind? (List.cons_ne_nil _ _) hk
  rw [hkeys] at hmem
  simpa using hmem

theorem plain_mixedHost : mixedHost.Plain (.ofString "/s") [[115]] := by
  refine ⟨?_, by decide, ?_, ?_, ?_⟩
  · have hroot : mixedHost.At ⟨[47]⟩ [] .directory :=
      ⟨by decide, by decide, ⟨0, Nat.zero_le _, .done []⟩, rfl⟩
    exact hroot.join (n := [115]) (by decide) (by decide) (by decide) rfl nofun
  · intro r target hlink
    rcases beneath_mixedHost (by rw [hlink]; exact Option.some_ne_none _) with rfl | rfl | rfl <;>
      cases hlink
  · intro r hr
    rcases beneath_mixedHost hr with rfl | rfl | rfl <;> decide
  · intro r hr
    rcases beneath_mixedHost hr with rfl | rfl | rfl <;> decide

/-- A path of one name from the root, where nothing is, would lead there. -/
theorem reaches_of_name {h : Host} {name : Filename} {p : Pathname}
    (hparent : p.parent = some ⟨[47]⟩) (hsteps : p.plainSteps = [.name name])
    (hshort : p.bytes.length < Host.pathLimit) (hzero : p.hasZero = false)
    (hname : name.length ≤ Host.longestName) (hfree : h.kind? [name] = none) :
    h.Reaches p [name] := by
  have hroot : h.At ⟨[47]⟩ [] .directory :=
    ⟨by decide, by decide, ⟨0, Nat.zero_le _, .done []⟩, rfl⟩
  have hplain : (⟨[47]⟩ : Pathname).plainSteps = [] := by decide
  exact .new hparent (.there hroot) ⟨0, by rw [hsteps, hplain]; rfl⟩ hshort hzero hname hfree

theorem place_mixedWorld : mixedWorld.Place (.ofString "/a") [] [97] :=
  ⟨reaches_of_name (by decide) (by decide) (by decide) (by decide) (by decide) rfl, rfl, by decide,
    by decide, by decide, by decide⟩

theorem unzip_zipTree_mixedWorld :
    ∃ w₁ w₂, zipTree (.host (.ofString "/s")) (.ofString "/a") mixedWorld = (.ok (), w₁) ∧
      unzip (.host (.ofString "/a")) (.host (.ofString "/t")) w₁ = (.ok (), w₂) ∧
      ∀ r, w₂.host.kind? ([[116]] ++ r) = mixedHost.kind? ([[115]] ++ r) := by
  have htexts : mixedHost.TextNames [[115]] := by
    intro r hr
    rcases beneath_mixedHost hr with rfl | rfl | rfl
    · exact ⟨[], rfl⟩
    · exact ⟨["d"], by decide⟩
    · exact ⟨["f"], by decide⟩
  have hnames : mixedHost.PlainNames [[115]] := by
    intro r n data hfile
    have hsome : mixedHost.kind? ([[115]] ++ (r ++ [n])) ≠ none := by
      rw [hfile]
      exact Option.some_ne_none _
    have hlast : (r ++ [n]).getLast? = some n := List.getLast?_concat
    rcases beneath_mixedHost hsome with hr | hr | hr
    · rw [hr] at hlast
      cases hlast
    · rw [hr] at hlast
      cases hlast
      decide
    · rw [hr] at hlast
      cases hlast
      decide
  have hdate : Instant.epoch.onCalendar = true := by decide
  obtain ⟨w₁, hzip, -, hunzip⟩ := unzip_zipTree mixedHost_wellFormed plain_mixedHost htexts hnames
    place_mixedWorld (by decide) (fun _ => hdate) readsBack_mixedRun
  have hmissing : w₁.host.kind? [[116]] = none := by
    have hrun : mixedRun.2 = w₁ := congrArg Prod.snd hzip
    rw [← hrun]
    exact Option.isNone_iff_eq_none.mp missing_after_mixedRun
  have hreaches : w₁.host.Reaches (.ofString "/t") [[116]] :=
    reaches_of_name (by decide) (by decide) (by decide) (by decide) (by decide) hmissing
  obtain ⟨w₂, hrun, -, hsame⟩ := hunzip _ _ hreaches hmissing (by
    intro r hr
    rcases beneath_mixedHost hr with rfl | rfl | rfl <;> decide)
  exact ⟨w₁, w₂, hzip, hrun, hsame⟩

end Archives

end ZipMount
