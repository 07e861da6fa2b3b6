import ZipMount.Proofs.Archives.Apart
import ZipMount.Proofs.Archives.Confined
import ZipMount.Proofs.Archives.Staged
import ZipMount.Proofs.Tree.Covered

namespace ZipMount

open MemberKey

/-- A row of actions fails at one of them, those before it having gone well. -/
theorem Action.forM_error {α : Type} {f : α → Action Unit} {as : List α} {w w' : World}
    {e : Failure} (h : as.forM f w = (.error e, w')) :
    ∃ before a after v, as = before ++ a :: after ∧ before.forM f w = (.ok (), v) ∧
      f a v = (.error e, w') := by
  induction as generalizing w with
  | nil => cases h
  | cons a as ih =>
    rw [forM_cons, bind_eq] at h
    cases ha : f a w with
    | mk r v =>
      rw [ha] at h
      cases r with
      | error e' =>
        cases h
        exact ⟨[], a, as, w, rfl, rfl, ha⟩
      | ok u =>
        obtain ⟨before, b, after, x, rfl, hbefore, hb⟩ := ih h
        refine ⟨a :: before, b, after, x, rfl, ?_, hb⟩
        rw [forM_cons, bind_of_ok ha]
        exact hbefore

/-- A world in which only the members of one mount changed: some entries were put over them. -/
structure World.Filling (v : World) (id : MountId) (m : Mount) (es : Outline) (u : World) : Prop where
  host : u.host = v.host
  others : ∀ n, n ≠ id.number → u.mounts[n]? = v.mounts[n]?
  mount : ∃ t dirty, u.mount? id = some { m with tree := t, dirty := dirty } ∧
    m.tree.Covered es t ∧ (t = m.tree ∧ dirty = m.dirty ∨ dirty = true ∧ m.readOnly = false)

namespace World.Filling

variable {v u u' : World} {id : MountId} {m : Mount} {es es' : Outline}

theorem refl (hm : v.mount? id = some m) (hw : m.tree.WellFormed) : v.Filling id m [] v :=
  ⟨rfl, fun _ _ => rfl, m.tree, m.dirty, hm, Tree.covered_nil hw, Or.inl ⟨rfl, rfl⟩⟩

/-- Paths that are not on the mount lead to what they led to. -/
theorem agreesOn (h : v.Filling id m es u) {ids : List MountId}
    (hids : ∀ j ∈ ids, j.number ≠ id.number) : v.AgreesOn ids u :=
  ⟨h.host, fun j hj => h.others j.number (hids j hj)⟩

theorem changeTree (h : v.Filling id m es u) {q : Pathname} {f : Tree → Except Refusal Tree}
    (hu : u.tick.changeTree id q f = .ok u')
    (hf : ∀ t t', m.tree.Covered es t → f t = .ok t' → m.tree.Covered es' t') :
    v.Filling id m es' u' := by
  obtain ⟨t, dirty, hmount, hcovered, -⟩ := h.mount
  obtain ⟨m', t', hwritable, ht', rfl⟩ := changeTree_ok hu
  obtain ⟨hmount', -, hreadOnly⟩ := writableMount_ok.mp hwritable
  cases hmount'.symm.trans hmount
  refine ⟨h.host, ?_, t', true, ?_, hf t t' hcovered ht', Or.inr ⟨rfl, hreadOnly⟩⟩
  · intro n hn
    change (u.mounts.set id.number _)[n]? = _
    rw [List.getElem?_set_ne (Ne.symm hn)]
    exact h.others n hn
  · unfold World.setTree
    rw [mount?_setMount hmount', if_pos rfl]

end World.Filling

/-- What is copied of a source for a path beneath it: the key that the rest of the path names, and
what the path leads to. -/
def Path.entry? (source : Path) (w : World) (p : Path) : Option (MemberKey × Content) := do
  let text ← (p.relativeTo source).toOption
  let c ← p.content? w
  pure (ofText text, c)

namespace Archives

variable {v u u' : World} {id : MountId} {m : Mount} {es : Outline} {source p d : Path}

/-- An entry that cannot be copied changes nothing. -/
theorem copyEntry_error {f : Failure} (h : copyEntry p d u = (.error f, u')) : u' = u := by
  cases hc : p.content? u with
  | none =>
    obtain ⟨e, he⟩ := copyEntry_nothing hc d
    rw [he] at h
    cases h
    rfl
  | some c =>
    cases c with
    | directory =>
      rw [copyEntry_directory hc] at h
      cases hmake : d.provider.makeDirectory u d with
      | ok x =>
        rw [Path.ensureDirectory_of_ok hmake] at h
        cases h
      | error e =>
        rw [Path.ensureDirectory_of_error hmake] at h
        split at h
        · cases h
        · cases h
          rfl
    | file data =>
      rw [copyEntry_file hc] at h
      cases hwrite : d.provider.write u d data .replace with
      | ok x =>
        rw [Path.write_of_ok hwrite] at h
        cases h
      | error e =>
        rw [Path.write_of_error hwrite] at h
        cases h
        rfl

theorem copyBeneath_error {target : Path} {f : Failure}
    (h : copyBeneath source target p u = (.error f, u')) : u' = u := by
  cases hd : destination source target p with
  | error e =>
    unfold copyBeneath at h
    rw [Action.bind_of_error (Action.ask_of_error hd)] at h
    cases h
    rfl
  | ok d =>
    rw [copyBeneath_of_destination hd] at h
    have hworld := congrArg Prod.snd h
    rw [Action.noted_world] at hworld
    cases hcopy : copyEntry p d u with
    | mk r x =>
      rw [hcopy] at hworld
      cases hworld
      cases r with
      | ok a =>
        rw [Action.noted_of_ok hcopy] at h
        cases h
      | error f' => exact copyEntry_error hcopy

/-- An entry is put over the members of the mount. -/
theorem copyEntry_covers (h : v.Filling id m es u) {q : Pathname}
    (hrun : copyEntry p (.member id q) u = (.ok (), u')) :
    ∃ c, p.content? u = some c ∧ v.Filling id m (es ++ [(ofPathname q, c)]) u' := by
  have hkey : Canonical (ofPathname q) := canonical_ofText _
  cases hc : p.content? u with
  | none =>
    obtain ⟨e, he⟩ := copyEntry_nothing hc (.member id q)
    rw [he] at hrun
    cases hrun
  | some c =>
    refine ⟨c, rfl, ?_⟩
    cases c with
    | file data =>
      rw [copyEntry_file hc, Path.write_eq] at hrun
      have hchange : u.tick.changeTree id q
          (fun t => t.writeFile u.now (ofPathname q) data .replace) = .ok u' :=
        Action.change_ok hrun
      exact h.changeTree hchange fun t t' ht ht' => ht.writeFile hkey ht'
    | directory =>
      rw [copyEntry_directory hc] at hrun
      cases hmake : (Path.member id q).provider.makeDirectory u (.member id q) with
      | ok x =>
        rw [Path.ensureDirectory_of_ok hmake] at hrun
        cases hrun
        have hchange : u.tick.changeTree id q
            (fun t => t.makeDirectory u.now (ofPathname q)) = .ok u' := hmake
        exact h.changeTree hchange fun t t' ht ht' => ht.makeDirectory hkey ht'
      | error e =>
        rw [Path.ensureDirectory_of_error hmake] at hrun
        split at hrun
        · next hthere =>
          cases hrun
          rw [Bool.and_eq_true] at hthere
          obtain ⟨m', x, hopen, hx, hdirectory⟩ :=
            Path.content?_member.mp (Path.content?_directory.mpr hthere.2)
          obtain ⟨t, dirty, hmount, hcovered, hsame⟩ := h.mount
          cases (World.openMount_ok.mp hopen).1.symm.trans hmount
          exact ⟨h.host, h.others, t, dirty, hmount, hcovered.present hx hdirectory, hsame⟩
        · cases hrun

/-- What is copied to the root of an archive goes to the key that the rest of its path names. -/
theorem destination_root_ok (h : destination source (.member id ⟨[47]⟩) p = .ok d) :
    ∃ text q, p.relativeTo source = .ok text ∧ d = .member id q ∧ ofPathname q = ofText text := by
  unfold destination at h
  obtain ⟨text, htext, h⟩ := bind_eq_ok h
  refine ⟨text, ?_⟩
  by_cases hempty : text = ""
  · rw [if_pos hempty] at h
    cases h
    refine ⟨_, htext, rfl, ?_⟩
    rw [hempty]
    decide
  · rw [if_neg hempty] at h
    cases h
    exact ⟨_, htext, rfl, ofPathname_join_root text⟩

theorem copyBeneath_covers (h : v.Filling id m es u) (hp : ∀ j ∈ p.mounts, j.number ≠ id.number)
    (hrun : copyBeneath source (.member id ⟨[47]⟩) p u = (.ok (), u')) :
    ∃ kc, source.entry? v p = some kc ∧ v.Filling id m (es ++ [kc]) u' := by
  unfold copyBeneath at hrun
  obtain ⟨d, x, hask, hrest⟩ := Action.bind_ok hrun
  obtain ⟨hd, rfl⟩ := Action.ask_ok hask
  obtain ⟨text, q, htext, rfl, hq⟩ := destination_root_ok hd
  obtain ⟨c, hc, hfilled⟩ := copyEntry_covers h (Action.noted_ok hrest)
  rw [Path.content?_congr (h.agreesOn hp)] at hc
  rw [hq] at hfilled
  refine ⟨(ofText text, c), ?_, hfilled⟩
  unfold Path.entry?
  rw [htext, hc]
  rfl

/-- Entries that are copied one after the other are put one after the other. -/
theorem forM_copyBeneath_covers {found : List Path} (h : v.Filling id m es u)
    (hfound : ∀ p ∈ found, ∀ j ∈ p.mounts, j.number ≠ id.number)
    (hrun : found.forM (copyBeneath source (.member id ⟨[47]⟩)) u = (.ok (), u')) :
    ∃ es', found.map (source.entry? v) = es'.map some ∧ v.Filling id m (es ++ es') u' := by
  induction found generalizing es u with
  | nil =>
    obtain ⟨-, rfl⟩ := Action.pure_ok hrun
    refine ⟨[], rfl, ?_⟩
    rw [List.append_nil]
    exact h
  | cons p found ih =>
    obtain ⟨_, x, hfirst, hrest⟩ := Action.bind_ok hrun
    obtain ⟨kc, hentry, hfilled⟩ := copyBeneath_covers h (hfound p List.mem_cons_self) hfirst
    obtain ⟨es', hmap, hlast⟩ := ih hfilled (fun p hp => hfound p (List.mem_cons_of_mem _ hp)) hrest
    refine ⟨kc :: es', ?_, ?_⟩
    · rw [List.map_cons, List.map_cons, hentry, hmap]
    · rw [List.append_assoc] at hlast
      exact hlast

/-- How far copying a source into an archive comes, if it fails: of what a walk finds, some paths are
copied, and the next one cannot be. A source that is no directory, or that cannot be walked, is not
copied at all. -/
inductive Stops (source : Path) (fs : FileSystem) (f : Failure) (v : World) :
    List Path → World → Prop where
  | start (h : source.isDirectory v = true → ∃ e, source.walk .natural v = .error e) :
      Stops source fs f v [] v
  | entry {before after : List Path} {p : Path} {u : World} (hd : source.isDirectory v = true)
      (hwalk : source.walk .natural v = .ok (before ++ p :: after))
      (hbefore : before.forM (copyBeneath source (fs.path "/")) v = (.ok (), u))
      (hfails : copyBeneath source (fs.path "/") p u = (.error f, u)) :
      Stops source fs f v before u

theorem stops_of_error {fs : FileSystem} {f : Failure}
    (h : copyIntoArchive source fs .natural v = (.error f, u)) :
    ∃ before, Stops source fs f v before u := by
  cases hd : source.isDirectory v with
  | false =>
    have hsame : u = v := by
      rw [copyIntoArchive_of_file hd] at h
      split at h
      · cases h
        rfl
      · next name _ =>
        have hworld := congrArg Prod.snd h
        rw [Action.noted_world] at hworld
        cases hcopy : copyEntry source ((fs.path "/").resolve name) v with
        | mk r x =>
          rw [hcopy] at hworld
          cases hworld
          cases r with
          | ok a =>
            rw [Action.noted_of_ok hcopy] at h
            cases h
          | error f' => exact copyEntry_error hcopy
    rw [hsame]
    refine ⟨[], .start fun h => ?_⟩
    rw [hd] at h
    cases h
  | true =>
    rw [copyIntoArchive_of_directory hd] at h
    unfold copyTree at h
    cases hwalk : source.walk .natural v with
    | error e =>
      rw [Action.bind_of_error (Action.ask_of_error hwalk)] at h
      cases h
      exact ⟨[], .start fun _ => ⟨e, hwalk⟩⟩
    | ok found =>
      rw [Action.bind_of_ok (Action.ask_of_ok hwalk)] at h
      obtain ⟨before, p, after, x, rfl, hbefore, hp⟩ := Action.forM_error h
      cases copyBeneath_error hp
      exact ⟨before, .entry hd hwalk hbefore hp⟩

end Archives

end ZipMount
