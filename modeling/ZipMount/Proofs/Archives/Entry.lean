import ZipMount.Archives.Copy
import ZipMount.Proofs.Action
import ZipMount.Proofs.Archives.Source

namespace ZipMount

open MemberKey

namespace Archives

variable {w : World} {p : Path}

theorem isDirectory_of_content? {data : ByteArray} (h : p.content? w = some (.file data)) :
    p.isDirectory w = false := by
  cases hd : p.isDirectory w with
  | false => rfl
  | true =>
    rw [Path.content?_directory.mpr hd] at h
    cases h

/-- A directory is made sure of. -/
theorem copyEntry_directory (h : p.content? w = some .directory) (d : Path) :
    copyEntry p d w = d.ensureDirectory w := by
  unfold copyEntry
  rw [Action.get_bind, Path.content?_directory.mp h]
  rfl

/-- A file is read and written. -/
theorem copyEntry_file {data : ByteArray} (h : p.content? w = some (.file data)) (d : Path) :
    copyEntry p d w = d.write data .replace w := by
  have hfile := isDirectory_of_content? h
  obtain ⟨a, ha, hnot, hread⟩ : ∃ a, p.attributes w = .ok a ∧ a.isDirectory = false ∧
      p.read w = .ok data := by
    unfold Path.isDirectory at hfile
    unfold Path.content? at h
    cases ha : p.attributes w with
    | error e => rw [ha] at h; cases h
    | ok a =>
      rw [ha] at h hfile
      simp only [hfile, Bool.false_eq_true, if_false] at h
      refine ⟨a, rfl, hfile, ?_⟩
      cases hr : p.read w with
      | error e => rw [hr] at h; cases h
      | ok data' =>
        rw [hr] at h
        cases h
        rfl
  unfold copyEntry
  rw [Action.get_bind, hfile]
  change p.copy d .replace w = _
  unfold Path.copy
  rw [Action.bind_of_ok (Action.ask_of_ok ha), hnot]
  change (Action.ask p.read >>= fun data => d.write data .replace) w = _
  rw [Action.bind_of_ok (Action.ask_of_ok hread)]

theorem copyBeneath_of_destination {source target p d : Path}
    (h : destination source target p = .ok d) (w : World) :
    copyBeneath source target p w =
      Action.noted s!"Could not copy {p.display} to {d.display}" (copyEntry p d) w := by
  unfold copyBeneath
  rw [Action.bind_of_ok (Action.ask_of_ok h)]

/-- What leads to nothing is not copied. -/
theorem copyEntry_nothing (h : p.content? w = none) (d : Path) :
    ∃ e, copyEntry p d w = (.error (.error e), w) := by
  have hfile : p.isDirectory w = false := by
    rw [← Bool.not_eq_true, ← Path.content?_directory, h]
    exact nofun
  unfold copyEntry
  rw [Action.get_bind, hfile]
  change ∃ e, p.copy d .replace w = (.error (.error e), w)
  unfold Path.copy
  unfold Path.content? at h
  unfold Path.isDirectory at hfile
  cases ha : p.attributes w with
  | error e => exact ⟨e, Action.bind_of_error (Action.ask_of_error ha) _⟩
  | ok a =>
    rw [ha] at h hfile
    change a.isDirectory = false at hfile
    simp only [hfile, Bool.false_eq_true, if_false, Option.map_eq_none_iff] at h
    cases hr : p.read w with
    | ok data => rw [hr] at h; cases h
    | error e =>
      refine ⟨e, ?_⟩
      rw [Action.bind_of_ok (Action.ask_of_ok ha), hfile]
      change (Action.ask p.read >>= fun data => d.write data .replace) w = _
      exact Action.bind_of_error (Action.ask_of_error hr) _

end Archives

namespace Path

variable {w w' : World} {p : Path}

theorem makeDirectory_of_ok (h : p.provider.makeDirectory w p = .ok w') :
    p.makeDirectory w = (.ok (), w') := by
  rw [makeDirectory_eq]
  exact Action.change_of_ok h

theorem makeDirectory_of_error {e : Error} (h : p.provider.makeDirectory w p = .error e) :
    p.makeDirectory w = (.error (.error e), w) := by
  rw [makeDirectory_eq]
  exact Action.change_of_error h

theorem ensureDirectory_of_ok (h : p.provider.makeDirectory w p = .ok w') :
    p.ensureDirectory w = (.ok (), w') := by
  unfold ensureDirectory
  rw [Action.bind_of_ok (Action.attempt_of_ok (makeDirectory_of_ok h))]
  rfl

/-- What is in the way of a new directory does no harm if it is a directory. -/
theorem ensureDirectory_of_error {e : Error} (h : p.provider.makeDirectory w p = .error e) :
    p.ensureDirectory w =
      if e.isAlreadyExists && p.isDirectory w then (.ok (), w) else (.error (.error e), w) := by
  unfold ensureDirectory
  rw [Action.bind_of_ok (Action.attempt_of_error (makeDirectory_of_error h))]
  change (if !(e.isAlreadyExists && p.isDirectory w) then Action.fail e else pure () : Action Unit) w
    = _
  cases e.isAlreadyExists && p.isDirectory w <;> rfl

/-- The directories above a path are made first, unless it is a directory already. -/
theorem makeDirectoriesUpTo_succ (n : Nat) (p : Path) (w : World) :
    p.makeDirectoriesUpTo (n + 1) w =
      if p.isDirectory w then (.ok (), w)
      else match p.parent? with
        | some above =>
          if above.pathname.bytes ≠ [] then
            (above.makeDirectoriesUpTo n >>= fun _ => p.ensureDirectory) w
          else p.ensureDirectory w
        | none => p.ensureDirectory w := by
  rw [makeDirectoriesUpTo, Action.get_bind]
  split
  · rfl
  · cases p.parent? with
    | none => rfl
    | some above =>
      by_cases hne : above.pathname.bytes ≠ []
      · simp only [if_pos hne]
      · simp only [if_neg hne]

theorem makeDirectoriesUpTo_of_isDirectory (h : p.isDirectory w = true) (n : Nat) :
    p.makeDirectoriesUpTo n w = (.ok (), w) := by
  cases n with
  | zero => rfl
  | succ n => rw [makeDirectoriesUpTo_succ, if_pos h]

theorem write_of_ok {data : ByteArray} {mode : WriteMode}
    (h : p.provider.write w p data mode = .ok w') : p.write data mode w = (.ok (), w') := by
  rw [write_eq]
  exact Action.change_of_ok h

theorem write_of_error {data : ByteArray} {mode : WriteMode} {e : Error}
    (h : p.provider.write w p data mode = .error e) :
    p.write data mode w = (.error (.error e), w) := by
  rw [write_eq]
  exact Action.change_of_error h

variable {j : MountId} {m : Mount} {k : MemberKey}

/-- What a walk of an archive finds. -/
theorem walk_of_find (hm : w.openMount j = .ok m) {q : Pathname} {x : Member}
    (hx : m.tree.find? (ofPathname q) = some x) (order : WalkOrder) :
    (member j q).walk order w =
      .ok ((m.tree.preorder order (m.tree.height - (ofPathname q).length) (ofPathname q)).map
        (ofKey j)) := by
  have hwalk : (member j q).walk order w = (do
      let mount ← w.openMount j
      pure ((← Mount.answer q (mount.tree.walk order (ofPathname q))).map (ofKey j))) := rfl
  rw [hwalk, hm]
  change (Mount.answer q (m.tree.walk order (ofPathname q)) >>= fun ks => pure (ks.map (ofKey j))) =
    _
  rw [Tree.walk_eq, hx]
  rfl

theorem walk_ofKey (hm : w.openMount j = .ok m) (hk : Canonical k) {x : Member}
    (hx : m.tree.find? k = some x) (order : WalkOrder) :
    (ofKey j k).walk order w =
      .ok ((m.tree.preorder order (m.tree.height - k.length) k).map (ofKey j)) := by
  have hkey := ofPathname_pathname hk
  have hwalk := walk_of_find (q := k.pathname) hm (hkey.symm ▸ hx) order
  rw [hkey] at hwalk
  exact hwalk

theorem makeDirectory_ofKey (hm : w.writableMount j = .ok m) (hk : Canonical k) :
    (ofKey j k).provider.makeDirectory w (ofKey j k) =
      match m.tree.makeDirectory w.now k with
      | .ok t => .ok (w.tick.setTree j m t)
      | .error r => .error (r.error k.pathname.display) := by
  have hwritable : w.tick.writableMount j = .ok m := hm
  have hmake : (ofKey j k).provider.makeDirectory w (ofKey j k) =
      w.tick.changeTree j k.pathname fun t => t.makeDirectory w.now (ofPathname k.pathname) := rfl
  rw [hmake, ofPathname_pathname hk]
  refine (World.changeTree_eq hwritable _ _).trans ?_
  cases m.tree.makeDirectory w.now k <;> rfl

theorem write_member (hm : w.writableMount j = .ok m) (q : Pathname) (data : ByteArray)
    (mode : WriteMode) :
    (member j q).provider.write w (member j q) data mode =
      match m.tree.writeFile w.now (ofPathname q) data mode with
      | .ok t => .ok (w.tick.setTree j m t)
      | .error r => .error (r.error q.display) := by
  have hwritable : w.tick.writableMount j = .ok m := hm
  have hwrite : (member j q).provider.write w (member j q) data mode =
      w.tick.changeTree j q fun t => t.writeFile w.now (ofPathname q) data mode := rfl
  rw [hwrite]
  refine (World.changeTree_eq hwritable _ _).trans ?_
  cases m.tree.writeFile w.now (ofPathname q) data mode <;> rfl

theorem write_ofKey (hm : w.writableMount j = .ok m) (hk : Canonical k) (data : ByteArray)
    (mode : WriteMode) :
    (ofKey j k).provider.write w (ofKey j k) data mode =
      match m.tree.writeFile w.now k data mode with
      | .ok t => .ok (w.tick.setTree j m t)
      | .error r => .error (r.error k.pathname.display) := by
  have hwrite := write_member hm k.pathname data mode
  rw [ofPathname_pathname hk] at hwrite
  exact hwrite

/-- Making sure of a directory in an archive: one that is there will do, and a new one needs a parent
that is one. -/
theorem ensureDirectory_ofKey (hm : w.writableMount j = .ok m) (hk : Canonical k) :
    (ofKey j k).ensureDirectory w =
      match m.tree.find? k with
      | some ⟨.directory, _⟩ => (.ok (), w)
      | some ⟨.file _, _⟩ => (.error (.error (.alreadyExists k.pathname.display)), w)
      | none =>
        match m.tree.checkParent k with
        | .ok _ => (.ok (), w.tick.setTree j m (m.tree.insert k (.directory w.now)))
        | .error r => (.error (.error (r.error k.pathname.display)), w) := by
  obtain ⟨hmount, hopen, -⟩ := World.writableMount_ok.mp hm
  have hopen := World.openMount_ok.mpr ⟨hmount, hopen⟩
  have hmake := makeDirectory_ofKey hm hk
  rw [Tree.makeDirectory_eq] at hmake
  cases hf : m.tree.find? k with
  | some x =>
    rw [hf] at hmake
    have hcontent : (ofKey j k).content? w = some x.content :=
      (content?_ofKey hk).mpr ⟨m, x, hopen, hf, rfl⟩
    obtain ⟨content, times⟩ := x
    rw [ensureDirectory_of_error hmake]
    cases content with
    | directory =>
      rw [content?_directory.mp hcontent]
      rfl
    | file data =>
      rw [Archives.isDirectory_of_content? hcontent]
      rfl
  | none =>
    rw [hf] at hmake
    cases hp : m.tree.checkParent k with
    | ok u =>
      rw [hp] at hmake
      exact ensureDirectory_of_ok hmake
    | error r =>
      rw [hp] at hmake
      rw [ensureDirectory_of_error hmake]
      have hreason : r = .missing ∨ r = .notADirectory := by
        rw [Tree.checkParent_eq] at hp
        split at hp
        · cases hp
          exact Or.inl rfl
        · split at hp
          · cases hp
          · cases hp
            exact Or.inr rfl
      rcases hreason with rfl | rfl
      · rfl
      · rfl

/-- Writing a file in an archive over whatever file is there. -/
theorem replace_ofKey (hm : w.writableMount j = .ok m) (hk : Canonical k) (data : ByteArray) :
    (ofKey j k).write data .replace w =
      match m.tree.find? k with
      | some ⟨.directory, _⟩ => (.error (.error (.isADirectory k.pathname.display)), w)
      | some ⟨.file _, times⟩ =>
        (.ok (), w.tick.setTree j m
          (m.tree.insert k ⟨.file data, { times with modified := w.now, accessed := w.now }⟩))
      | none =>
        match m.tree.checkParent k with
        | .ok _ => (.ok (), w.tick.setTree j m (m.tree.insert k (.file data w.now)))
        | .error r => (.error (.error (r.error k.pathname.display)), w) := by
  have hwrite := write_ofKey hm hk data .replace
  rw [Tree.writeFile_eq] at hwrite
  cases hf : m.tree.find? k with
  | some x =>
    obtain ⟨content, times⟩ := x
    rw [hf] at hwrite
    cases content with
    | directory => exact write_of_error hwrite
    | file old => exact write_of_ok hwrite
  | none =>
    rw [hf] at hwrite
    cases hp : m.tree.checkParent k with
    | ok u =>
      rw [hp] at hwrite
      exact write_of_ok hwrite
    | error r =>
      rw [hp] at hwrite
      exact write_of_error hwrite

variable {q : Pathname}

theorem isDirectory_host : (host q).isDirectory w = true ↔
    q.hasZero = false ∧ ∃ l, w.host.At q l .directory := by
  rw [← content?_directory, content?_host]
  refine and_congr_right fun _ => exists_congr fun l => ?_
  constructor
  · rintro ⟨kind, hat, hcontent⟩
    cases kind with
    | directory => exact hat
    | file data => cases hcontent
    | link target => cases hcontent
  · exact fun hat => ⟨_, hat, rfl⟩

/-- Making sure of a directory on the host. -/
theorem ensureDirectory_host (w : World) (q : Pathname) :
    (host q).ensureDirectory w =
      match w.host.makeDirectory w.now q with
      | .ok h => (.ok (), { w.tick with host := h })
      | .error f =>
        if (Error.ofHost q.display f).isAlreadyExists && (host q).isDirectory w then (.ok (), w)
        else (.error (.error (.ofHost q.display f)), w) := by
  have hmake : (host q).provider.makeDirectory w (host q) =
      w.tick.changeHost q fun h => h.makeDirectory w.now q := rfl
  have hhost : w.tick.host = w.host := rfl
  rw [World.changeHost_eq, hhost] at hmake
  cases hm : w.host.makeDirectory w.now q with
  | ok h =>
    rw [hm] at hmake
    exact ensureDirectory_of_ok hmake
  | error f =>
    rw [hm] at hmake
    exact ensureDirectory_of_error hmake

/-- Writing a file on the host. -/
theorem write_host (w : World) (q : Pathname) (data : ByteArray) (mode : WriteMode) :
    (host q).write data mode w =
      match w.host.write w.now q data mode with
      | .ok h => (.ok (), { w.tick with host := h })
      | .error f => (.error (.error (.ofHost q.display f)), w) := by
  have hwrite : (host q).provider.write w (host q) data mode =
      w.tick.changeHost q fun h => h.write w.now q data mode := rfl
  have hhost : w.tick.host = w.host := rfl
  rw [World.changeHost_eq, hhost] at hwrite
  cases hm : w.host.write w.now q data mode with
  | ok h =>
    rw [hm] at hwrite
    exact write_of_ok hwrite
  | error f =>
    rw [hm] at hwrite
    exact write_of_error hwrite

end Path

end ZipMount
