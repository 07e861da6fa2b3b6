import ZipMount.Proofs.Archives.Entry
import ZipMount.Proofs.Errands.Twin
import ZipMount.Proofs.Rose.Run

namespace ZipMount

open MemberKey

section Paths

variable {start : Host} {p : Pathname} {loc : Location} {k : MemberKey}

/-- The path of a key beneath a path, or any path to the directory for the root. -/
inductive Named (start : Host) (p : Pathname) (loc : Location) : MemberKey → Pathname → Prop where
  | root {q : Pathname} (hat : start.At q loc .directory) (hz : q.hasZero = false) :
      Named start p loc [] q
  | under {k : MemberKey} (hk : k.Suits p) : Named start p loc k (p.under k.filenames)

/-- The path before the last name of a key is that of the key above. -/
theorem MemberKey.Suits.parent (hs : start.EmptyAt p loc) (hk : k.Suits p) :
    ∃ q, (p.under k.filenames).parent = some q ∧ q.bytes ≠ [] ∧
      Named start p loc (parent k) q := by
  obtain ⟨init, s, rfl⟩ : ∃ (init : MemberKey) (s : String), k = init ++ [s] :=
    ⟨_, _, (List.dropLast_concat_getLast hk.ne_nil).symm⟩
  have hne := hs.leads.ne_nil
  have hfit := hk.fits
  have hz := hk.hasZero hs.noZero
  rw [filenames_append] at hfit hz ⊢
  have hn : IsSegment (Text.bytes s) := hfit.segments _ (by simp [filenames])
  have hinit : p.Fits init.filenames := Pathname.Fits.init hne hfit
  have hjoin : p.under (init.filenames ++ filenames [s]) =
      (p.under init.filenames).join ⟨Text.bytes s⟩ := Pathname.under_concat p _ _
  rw [hjoin] at hz ⊢
  rw [parent_concat]
  by_cases hnil : init = []
  · subst hnil
    obtain ⟨q, hq, hqne, dots, hdots⟩ := Pathname.parent_join hne hn
    have hshort := hfit.short
    rw [hjoin] at hshort
    exact ⟨q, hq, hqne, .root (hs.leads.parent_join hn hq hqne hdots hshort)
      (Pathname.hasZero_parent hq hz)⟩
  · obtain ⟨before, r, rfl⟩ : ∃ (before : MemberKey) (r : String), init = before ++ [r] :=
      ⟨_, _, (List.dropLast_concat_getLast hnil).symm⟩
    have hsegments := hinit.segments
    rw [filenames_append] at hsegments ⊢
    have hr : IsSegment (Text.bytes r) := hsegments _ (by simp [filenames])
    have hbefore : (p.under before.filenames).bytes ≠ [] :=
      Pathname.under_ne_nil hne fun m hm => hsegments m (List.mem_append_left _ hm)
    have hsplit : p.under (before.filenames ++ filenames [r]) =
        (p.under before.filenames).join ⟨Text.bytes r⟩ := Pathname.under_concat p _ _
    rw [hsplit, Pathname.parent_join_join hbefore hr hn]
    refine ⟨_, rfl, Pathname.join_ne_nil hbefore hr, ?_⟩
    rw [← hsplit, ← filenames_append]
    exact .under ⟨by simp, hinit⟩

end Paths

/-- A mount open for writing and a host, the members of the one being twin to a directory of the
other. -/
def World.Paired (id : MountId) (start : Host) (p : Pathname) (loc : Location) (v w : World) :
    Prop :=
  ∃ m, v.writableMount id = .ok m ∧ Twin start p loc m.tree w.host

/-- Outcomes that concur, in worlds that are still paired. -/
structure Together {α β : Type} (id : MountId) (start : Host) (p : Pathname) (loc : Location)
    (R : α → β → Prop) (x : Except Failure α × World) (y : Except Failure β × World) : Prop where
  results : Concur R x.1 y.1
  worlds : World.Paired id start p loc x.2 y.2

section Actions

variable {α β α' β' : Type} {id : MountId} {start : Host} {p q : Pathname} {loc : Location}
  {k : MemberKey} {v w : World} {R : α → β → Prop} {S : α' → β' → Prop}

theorem Concur.mapError {ε ε' δ δ' : Type} {r : Except ε α} {s : Except ε' β} (hc : Concur R r s)
    (f : ε → δ) (g : ε' → δ') : Concur R (r.mapError f) (s.mapError g) := by
  cases hc with
  | ok h => exact .ok h
  | error e e' => exact .error _ _

/-- One action after the other. -/
theorem Together.bind {x : Action α} {y : Action β} {f : α → Action α'} {g : β → Action β'}
    (hxy : Together id start p loc R (x v) (y w))
    (hfg : ∀ a b v' w', R a b → v'.Paired id start p loc w' →
      Together id start p loc S (f a v') (g b w')) :
    Together id start p loc S ((x >>= f) v) ((y >>= g) w) := by
  rw [Action.bind_eq, Action.bind_eq]
  obtain ⟨hresults, hworlds⟩ := hxy
  revert hresults hworlds
  cases x v with
  | mk r v' =>
    cases y w with
    | mk s w' =>
      intro hresults hworlds
      cases hresults with
      | ok h => exact hfg _ _ _ _ h hworlds
      | error e e' => exact ⟨.error _ _, hworlds⟩

theorem Together.pure (hp : v.Paired id start p loc w) {a : α} {b : β} (h : R a b) :
    Together id start p loc R ((Pure.pure a : Action α) v) ((Pure.pure b : Action β) w) :=
  ⟨.ok h, hp⟩

theorem together_ask (hp : v.Paired id start p loc w) {f : World → Except Error α}
    {g : World → Except Error β} (hc : Concur R (f v) (g w)) :
    Together id start p loc R (Action.ask f v) (Action.ask g w) := by
  simp only [Action.ask]
  generalize f v = r at hc ⊢
  generalize g w = s at hc ⊢
  cases hc with
  | ok h => exact ⟨.ok h, hp⟩
  | error e e' => exact ⟨.error _ _, hp⟩

theorem together_change (hp : v.Paired id start p loc w) {f g : World → Except Error World}
    (hc : Concur (World.Paired id start p loc) (f v) (g w)) :
    Together id start p loc (fun _ _ => True) (Action.change f v) (Action.change g w) := by
  simp only [Action.change]
  generalize f v = r at hc ⊢
  generalize g w = s at hc ⊢
  cases hc with
  | ok h => exact ⟨.ok trivial, h⟩
  | error e e' => exact ⟨.error _ _, hp⟩

theorem World.Paired.setTree {m : Mount} (hm : v.writableMount id = .ok m) {t : Tree} {h : Host}
    (ht : Twin start p loc t h) :
    (v.setTree id m t).Paired id start p loc { w with host := h } :=
  ⟨_, writableMount_setTree hm t, ht⟩

/-- The members and the directory changed alike. -/
theorem concur_change {m : Mount} (hm : v.writableMount id = .ok m)
    {f : Tree → Except Refusal Tree} {g : Host → Except IoFault Host} (q r : Pathname)
    (hc : Concur (Twin start p loc) (f m.tree) (g w.host)) :
    Concur (World.Paired id start p loc) (v.changeTree id q f) (w.changeHost r g) := by
  rw [World.changeTree_eq hm, World.changeHost_eq]
  generalize f m.tree = x at hc ⊢
  generalize g w.host = y at hc ⊢
  cases hc with
  | ok ht => exact .ok (.setTree hm ht)
  | error e e' => exact .error _ _

namespace World.Paired

theorem origin (hp : v.Paired id start p loc w) : start.EmptyAt p loc := by
  obtain ⟨m, -, ht⟩ := hp
  exact ht.origin

theorem makeDirectory (hp : v.Paired id start p loc w) (hk : k.Suits p) :
    Together id start p loc (fun _ _ => True) ((Path.ofKey id k).makeDirectory v)
      ((Path.host (p.under k.filenames)).makeDirectory w) := by
  obtain ⟨m, hm, ht⟩ := hp
  have hmake : (Path.ofKey id k).provider.makeDirectory v (.ofKey id k) =
      v.tick.changeTree id k.pathname fun t => t.makeDirectory v.now (ofPathname k.pathname) := rfl
  have hmake' : ∀ q, (Path.host q).provider.makeDirectory w (.host q) =
      w.tick.changeHost q fun h => h.makeDirectory w.now q := fun _ => rfl
  rw [ofPathname_pathname hk.canonical] at hmake
  rw [Path.makeDirectory_eq, Path.makeDirectory_eq]
  apply together_change ⟨m, hm, ht⟩
  rw [hmake, hmake']
  refine concur_change (v := v.tick) (w := w.tick) hm _ _ ?_
  exact ht.makeDirectory hk v.now w.now

theorem write (hp : v.Paired id start p loc w) (hk : k.Suits p) (data : ByteArray)
    (mode : WriteMode) :
    Together id start p loc (fun _ _ => True) ((Path.ofKey id k).write data mode v)
      ((Path.host (p.under k.filenames)).write data mode w) := by
  obtain ⟨m, hm, ht⟩ := hp
  have hwrite : (Path.ofKey id k).provider.write v (.ofKey id k) data mode =
      v.tick.changeTree id k.pathname fun t =>
        t.writeFile v.now (ofPathname k.pathname) data mode := rfl
  have hwrite' : ∀ q, (Path.host q).provider.write w (.host q) data mode =
      w.tick.changeHost q fun h => h.write w.now q data mode := fun _ => rfl
  rw [ofPathname_pathname hk.canonical] at hwrite
  rw [Path.write_eq, Path.write_eq]
  apply together_change ⟨m, hm, ht⟩
  rw [hwrite, hwrite']
  refine concur_change (v := v.tick) (w := w.tick) hm _ _ ?_
  exact ht.write hk data mode v.now w.now

theorem delete (hp : v.Paired id start p loc w) (hk : k.Suits p) :
    Together id start p loc (fun _ _ => True)
      (Action.ofWork (Work.delete (Path.ofKey id k).provider (.ofKey id k)) v)
      (Action.ofWork (Work.delete (Path.host (p.under k.filenames)).provider
        (.host (p.under k.filenames))) w) := by
  obtain ⟨m, hm, ht⟩ := hp
  have hdelete : (Path.ofKey id k).provider.delete v (.ofKey id k) =
      v.changeTree id k.pathname fun t => t.remove (ofPathname k.pathname) := rfl
  have hdelete' : ∀ q, (Path.host q).provider.delete w (.host q) =
      w.tick.changeHost q fun h => h.remove w.now q := fun _ => rfl
  rw [ofPathname_pathname hk.canonical] at hdelete
  rw [Action.ofWork_eq fun _ => Work.delete_eq, Action.ofWork_eq fun _ => Work.delete_eq]
  apply together_change ⟨m, hm, ht⟩
  rw [hdelete, hdelete']
  refine concur_change (w := w.tick) hm _ _ ?_
  exact ht.remove hk w.now

theorem read (hp : v.Paired id start p loc w) (hk : k.Suits p) :
    Concur Eq ((Path.ofKey id k).read v) ((Path.host (p.under k.filenames)).read w) := by
  obtain ⟨m, hm, ht⟩ := hp
  have hread : (Path.ofKey id k).read v = (do
      let m ← v.openMount id
      Mount.answer k.pathname (m.tree.read (ofPathname k.pathname))) := rfl
  rw [hread, World.openMount_of_writableMount hm, ofPathname_pathname hk.canonical]
  exact (ht.read hk).mapError _ _

theorem list (hp : v.Paired id start p loc w) (hk : k.Suits p) :
    Concur (fun ps qs => ∃ ss : List String, (∀ s ∈ ss, (k ++ [s]).Suits p) ∧
        ps = ss.map (fun s => .ofKey id (k ++ [s])) ∧
        qs.Perm (ss.map fun s => .host (p.under (k ++ [s]).filenames)))
      ((Path.ofKey id k).provider.list v (.ofKey id k))
      ((Path.host (p.under k.filenames)).provider.list w (.host (p.under k.filenames))) := by
  obtain ⟨m, hm, ht⟩ := hp
  have hlist : (Path.ofKey id k).provider.list v (.ofKey id k) = (do
      let m ← v.openMount id
      let ks ← Mount.answer k.pathname (m.tree.list (ofPathname k.pathname))
      pure (ks.map (.ofKey id))) := rfl
  have hlist' : ∀ q, (Path.host q).provider.list w (.host q) = (do
      let names ← Host.answer q (w.host.list q)
      pure (names.map fun n => .host (q.join ⟨n⟩))) := fun _ => rfl
  have hc := ht.list hk
  rw [hlist, hlist', World.openMount_of_writableMount hm, ofPathname_pathname hk.canonical]
  change Concur _
    (Mount.answer k.pathname (m.tree.list k) >>= fun ks => pure (ks.map (Path.ofKey id))) _
  unfold Host.answer
  generalize m.tree.list k = x at hc ⊢
  generalize w.host.list (p.under k.filenames) = y at hc ⊢
  cases hc with
  | error e e' => exact .error _ _
  | ok h =>
    obtain ⟨ss, hss, rfl, hperm⟩ := h
    have hjoin : ∀ s : String, (p.under k.filenames).join ⟨Text.bytes s⟩ =
        p.under (k ++ [s]).filenames := by
      intro s
      rw [filenames_append, Pathname.under_append]
      rfl
    have hpaths := hperm.map fun n => Path.host ((p.under k.filenames).join ⟨n⟩)
    rw [List.map_map] at hpaths
    simp only [Function.comp_def, hjoin] at hpaths
    exact .ok ⟨ss, hss, List.map_map, hpaths⟩

theorem isDirectory_ofKey (hp : v.Paired id start p loc w) (hk : Canonical k) :
    (Path.ofKey id k).isDirectory v = true ↔
      w.host.kind? (loc ++ k.filenames) = some .directory := by
  obtain ⟨m, hm, ht⟩ := hp
  rw [← Path.content?_directory, Path.content?_ofKey hk, World.openMount_of_writableMount hm,
    ← ht.mirrors.kinds, Tree.kind?, Option.map_eq_some_iff]
  constructor
  · rintro ⟨m', x, hm', hx, hcontent⟩
    cases hm'
    exact ⟨x, hx, by rw [hcontent]; rfl⟩
  · rintro ⟨⟨content, times⟩, hx, hkind⟩
    cases content with
    | directory => exact ⟨m, _, rfl, hx, rfl⟩
    | file data => cases hkind

theorem isDirectory_host (hp : v.Paired id start p loc w) (hk : k.Suits p) :
    (Path.host (p.under k.filenames)).isDirectory w = true ↔
      w.host.kind? (loc ++ k.filenames) = some .directory := by
  obtain ⟨m, -, ht⟩ := hp
  rw [Path.isDirectory_host, ht.plain.at_directory_iff ht.host hk.fits.segments,
    and_iff_right (hk.hasZero ht.origin.noZero)]

theorem ensureDirectory (hp : v.Paired id start p loc w) (hk : k.Suits p) :
    Together id start p loc (fun _ _ => True) ((Path.ofKey id k).ensureDirectory v)
      ((Path.host (p.under k.filenames)).ensureDirectory w) := by
  have hthere := hp.isDirectory_host hk
  obtain ⟨m, hm, ht⟩ := hp
  have hp : v.Paired id start p loc w := ⟨m, hm, ht⟩
  have hstands := ht.stands hk .itself
  rw [Path.ensureDirectory_ofKey hm hk.canonical, Path.ensureDirectory_host,
    Host.makeDirectory_eq (hk.hasZero ht.origin.noZero)]
  rw [← ht.mirrors.kinds, Tree.kind?] at hthere
  have hexists : ∀ subject, (Error.ofHost subject (.host .exists)).isAlreadyExists = true :=
    fun _ => rfl
  generalize w.host.lookup .itself (p.under k.filenames) (p.under k.filenames).plainSteps = found
    at hstands ⊢
  cases hstands with
  | directory hx =>
    rw [hx] at hthere
    have hdirectory := hthere.mpr rfl
    simp only [hx, hexists, hdirectory, Bool.and_self, if_true]
    exact ⟨.ok trivial, hp⟩
  | file hx =>
    rw [hx] at hthere
    have hfile := Bool.eq_false_iff.mpr fun h => by cases hthere.mp h
    simp only [hx, hfile, Bool.and_false, Bool.false_eq_true, if_false]
    exact ⟨.error _ _, hp⟩
  | unreached hx hparent e =>
    rw [hx] at hthere
    have hnothing := Bool.eq_false_iff.mpr fun h => by cases hthere.mp h
    simp only [hx, hparent, hnothing, Bool.and_false, Bool.false_eq_true, if_false]
    exact ⟨.error _ _, hp⟩
  | vacant hn hx hparent =>
    simp only [hx, hparent]
    exact ⟨.ok trivial,
      .setTree (v := v.tick) (w := w.tick) hm (ht.add hk hx hparent hn rfl w.now)⟩

/-- At the base there is nothing to make. -/
theorem makeDirectoriesUpTo_root (hp : v.Paired id start p loc w) (hat : start.At q loc .directory)
    (hz : q.hasZero = false) (n n' : Nat) :
    Together id start p loc (fun _ _ => True) ((Path.ofKey id []).makeDirectoriesUpTo n v)
      ((Path.host q).makeDirectoriesUpTo n' w) := by
  have hroot := hp.isDirectory_ofKey canonical_nil
  obtain ⟨m, hm, ht⟩ := hp
  have hat := hat.mono ht.kept ht.working
  rw [filenames, List.map_nil, List.append_nil] at hroot
  rw [Path.makeDirectoriesUpTo_of_isDirectory (hroot.mpr hat.kind),
    Path.makeDirectoriesUpTo_of_isDirectory (Path.isDirectory_host.mpr ⟨hz, loc, hat⟩)]
  exact ⟨.ok trivial, m, hm, ht⟩

/-- What is missing above a directory is made first, on both sides. -/
theorem makeDirectoriesUpTo {v w : World} {k : MemberKey} {q : Pathname}
    (hp : v.Paired id start p loc w) (hq : Named start p loc k q) {n n' : Nat} (hn : k.length ≤ n)
    (hn' : k.length ≤ n') :
    Together id start p loc (fun _ _ => True) ((Path.ofKey id k).makeDirectoriesUpTo n v)
      ((Path.host q).makeDirectoriesUpTo n' w) := by
  cases hq with
  | root hat hz => exact hp.makeDirectoriesUpTo_root hat hz n n'
  | under hk =>
    have hshorter := parent_length_lt hk.ne_nil
    obtain ⟨n, rfl⟩ : ∃ i, n = i + 1 := ⟨n - 1, by omega⟩
    obtain ⟨n', rfl⟩ : ∃ i, n' = i + 1 := ⟨n' - 1, by omega⟩
    obtain ⟨q, hq, hne, hnamed⟩ := hk.parent hp.origin
    have habove : (Path.ofKey id k).parent? = some (.ofKey id (parent k)) :=
      Path.parent?_ofKey hk.canonical hk.ne_nil id
    have habove' : (Path.host (p.under k.filenames)).parent? = some (.host q) :=
      congrArg (Option.map Path.host) hq
    have hroot : (Path.ofKey id (parent k)).pathname.bytes ≠ [] := pathname_ne_nil _
    have hqroot : (Path.host q).pathname.bytes ≠ [] := hne
    have hsame := (hp.isDirectory_ofKey hk.canonical).trans (hp.isDirectory_host hk).symm
    rw [Path.makeDirectoriesUpTo_succ, Path.makeDirectoriesUpTo_succ, habove, habove']
    simp only [if_pos hroot, if_pos hqroot]
    by_cases hthere : (Path.ofKey id k).isDirectory v = true
    · rw [if_pos hthere, if_pos (hsame.mp hthere)]
      exact ⟨.ok trivial, hp⟩
    · rw [if_neg hthere, if_neg (mt hsame.mpr hthere)]
      apply Together.bind (R := fun _ _ => True)
      · exact makeDirectoriesUpTo hp hnamed (by omega) (by omega)
      · exact fun _ _ _ _ _ hp' => hp'.ensureDirectory hk
termination_by k.length

end World.Paired

end Actions

end ZipMount
