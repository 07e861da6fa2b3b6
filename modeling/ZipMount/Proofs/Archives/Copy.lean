import ZipMount.Archives.Copy
import ZipMount.Proofs.Action
import ZipMount.Proofs.Archives.Source
import ZipMount.Proofs.Tree.Outline
import ZipMount.Proofs.Tree.Reachable

namespace ZipMount

open MemberKey

/-- A mount that can be filled: open for writing, and to be written to its file. -/
structure Mount.Ready (m : Mount) : Prop where
  isOpen : m.isOpen = true
  readOnly : m.readOnly = false
  dirty : m.dirty = true

/-- A world with the files and archives of another, save the members of one mount, of which
something is known. -/
structure World.SameBut (w₀ : World) (id : MountId) (m₀ : Mount) (P : Tree → Prop) (w : World) :
    Prop where
  host : w.host = w₀.host
  others : ∀ n, n ≠ id.number → w.mounts[n]? = w₀.mounts[n]?
  mount : ∃ t, w.mount? id = some { m₀ with tree := t } ∧ P t

/-- A proper tree whose members hold this. -/
def Tree.Outlined (o : Outline) (t : Tree) : Prop := t.WellFormed ∧ t.outline = o

/-- Puts under the key of some names what they lead to, if anything. -/
def Outline.add (holds : List Filename → Option Content) (o : Outline) (r : List Filename) :
    Outline :=
  match holds r with
  | some c => o.place (ofNames r) c
  | none => o

/-- A path that is not on a mount. -/
def Path.IsOff (s : Path) (id : MountId) : Prop := ∀ j q, s = .member j q → j.number ≠ id.number

namespace World.SameBut

variable {w₀ w w' : World} {id : MountId} {m₀ : Mount} {P Q : Tree → Prop}

theorem tick (h : w₀.SameBut id m₀ P w) : w₀.SameBut id m₀ P w.tick :=
  ⟨h.host, h.others, h.mount⟩

theorem openMount (hm : m₀.Ready) (h : w₀.SameBut id m₀ P w) :
    ∃ t, w.openMount id = .ok { m₀ with tree := t } ∧ P t := by
  obtain ⟨t, ht, hP⟩ := h.mount
  exact ⟨t, openMount_ok.mpr ⟨ht, hm.isOpen⟩, hP⟩

/-- Other members of the mount. -/
theorem setTree (hm : m₀.Ready) (h : w₀.SameBut id m₀ P w) {t t' : Tree}
    (ht : w.mount? id = some { m₀ with tree := t }) (hQ : Q t') :
    w₀.SameBut id m₀ Q (w.setTree id { m₀ with tree := t } t') := by
  have hdirty : { m₀ with tree := t', dirty := true } = ({ m₀ with tree := t' } : Mount) := by
    rw [← hm.dirty]
  refine ⟨h.host, ?_, t', ?_, hQ⟩
  · intro n hn
    change (w.mounts.set id.number _)[n]? = _
    rw [List.getElem?_set_ne (Ne.symm hn)]
    exact h.others n hn
  · unfold World.setTree
    rw [mount?_setMount ht, if_pos rfl, hdirty]

/-- A change of the mount's members. -/
theorem changeTree (hm : m₀.Ready) (h : w₀.SameBut id m₀ P w) {q : Pathname}
    {f : Tree → Except Refusal Tree} (hw : w.changeTree id q f = .ok w')
    (hf : ∀ t t', P t → f t = .ok t' → Q t') : w₀.SameBut id m₀ Q w' := by
  obtain ⟨t₀, ht₀, hP⟩ := h.mount
  obtain ⟨m, t, hwritable, ht, rfl⟩ := changeTree_ok hw
  obtain ⟨hmount, -, -⟩ := writableMount_ok.mp hwritable
  have hsame : m = { m₀ with tree := t₀ } := Option.some.inj (hmount.symm.trans ht₀)
  subst hsame
  exact h.setTree hm ht₀ (hf t₀ t hP ht)

/-- What a path on no other mount leads to is what it led to. -/
theorem content?_eq (h : w₀.SameBut id m₀ P w) {p : Path} (hp : p.IsOff id)
    (hproxy : ∀ d fs, p ≠ .proxy d fs) : p.content? w = p.content? w₀ := by
  cases p with
  | proxy d fs => exact absurd rfl (hproxy d fs)
  | host q =>
    have hattributes : ∀ v : World, (Path.host q).attributes v = Host.answer q (v.host.stat q) :=
      fun _ => rfl
    have hread : ∀ v : World, (Path.host q).read v = Host.answer q (v.host.read q) := fun _ => rfl
    rw [Path.content?, Path.content?, hattributes, hattributes, hread, hread, h.host]
  | member j q =>
    have hmount : w.openMount j = w₀.openMount j := by
      rw [World.openMount, World.openMount, World.mount?, World.mount?, h.others _ (hp j q rfl)]
    apply Option.ext
    intro c
    rw [Path.content?_member, Path.content?_member, hmount]

theorem holds_eq (h : w₀.SameBut id m₀ P w) {s : Path} (hs : s.IsOff id) (r : List Filename) :
    s.holds w r = s.holds w₀ r := by
  unfold Path.holds
  cases hp : s.below? r with
  | none => rfl
  | some p =>
    rw [Option.bind_some, Option.bind_some]
    cases s with
    | proxy d fs => cases hp
    | host q =>
      cases hp
      apply h.content?_eq
      · intro j q' hq
        cases hq
      · intro d fs hq
        cases hq
    | member j q =>
      obtain ⟨k, -, rfl⟩ := Path.below?_member.mp hp
      apply h.content?_eq
      · intro j' q' hq
        cases hq
        exact hs j q rfl
      · intro d fs hq
        cases hq

end World.SameBut

namespace Path

variable {w₀ w w' : World} {id : MountId} {m₀ : Mount} {o : Outline}

theorem ensureDirectory_fills (hm : m₀.Ready) (h : w₀.SameBut id m₀ (Tree.Outlined o) w)
    {q : Pathname} (hrun : (member id q).ensureDirectory w = (.ok (), w')) :
    w₀.SameBut id m₀ (Tree.Outlined (o.place (ofPathname q) .directory)) w' := by
  unfold ensureDirectory at hrun
  obtain ⟨r, v, hattempt, hrest⟩ := Action.bind_ok hrun
  rw [makeDirectory_eq] at hattempt
  rcases Action.attempt_change hattempt with ⟨rfl, hmade⟩ | ⟨e, rfl, -, rfl⟩
  · obtain ⟨-, rfl⟩ := Action.pure_ok hrest
    have hchange : w.tick.changeTree id q
        (fun t => t.makeDirectory w.now (ofPathname q)) = .ok v := hmade
    apply h.tick.changeTree hm hchange
    rintro t t' ⟨hwf, rfl⟩ ht
    exact ⟨hwf.makeDirectory (canonical_ofText _) ht, Tree.outline_makeDirectory ht⟩
  · have hthere := Action.get_bind_ok hrest
    cases hfail : !(e.isAlreadyExists && (member id q).isDirectory v) with
    | true =>
      rw [hfail] at hthere
      cases hthere
    | false =>
      rw [hfail] at hthere
      obtain ⟨-, rfl⟩ := Action.pure_ok hthere
      rw [Bool.not_eq_false', Bool.and_eq_true] at hfail
      obtain ⟨m, x, hopen, hx, hc⟩ := content?_member.mp (content?_directory.mpr hfail.2)
      obtain ⟨t, ht, hwf, hout⟩ := h.openMount hm
      rw [ht] at hopen
      cases hopen
      have hplace := Tree.outline_place_present hx
      rw [hc, hout] at hplace
      rw [hplace]
      exact h

theorem copy_fills (hm : m₀.Ready) (h : w₀.SameBut id m₀ (Tree.Outlined o) w) {p : Path}
    (hp : p.isDirectory w = false) {q : Pathname}
    (hrun : p.copy (member id q) .replace w = (.ok (), w')) :
    ∃ data, p.content? w = some (.file data) ∧
      w₀.SameBut id m₀ (Tree.Outlined (o.place (ofPathname q) (.file data))) w' := by
  unfold copy at hrun
  obtain ⟨a, v, hask, hrest⟩ := Action.bind_ok hrun
  obtain ⟨hattributes, rfl⟩ := Action.ask_ok hask
  have hfile : a.isDirectory = false := by
    unfold isDirectory at hp
    rw [hattributes] at hp
    exact hp
  rw [hfile] at hrest
  obtain ⟨data, v', hask, hwrite⟩ := Action.bind_ok hrest
  obtain ⟨hread, rfl⟩ := Action.ask_ok hask
  refine ⟨data, ?_, ?_⟩
  · rw [content?, hattributes]
    simp only [hfile, Bool.false_eq_true, if_false, hread]
    rfl
  · rw [Path.write_eq] at hwrite
    have hchange : v'.tick.changeTree id q
        (fun t => t.writeFile v'.now (ofPathname q) data .replace) = .ok w' :=
      Action.change_ok hwrite
    apply h.tick.changeTree hm hchange
    rintro t t' ⟨hwf, rfl⟩ ht
    exact ⟨hwf.writeFile (canonical_ofText _) ht, Tree.outline_writeFile ht⟩

end Path

namespace Archives

variable {w₀ w w' : World} {id : MountId} {m₀ : Mount} {o : Outline}

theorem copyEntry_fills (hm : m₀.Ready) (h : w₀.SameBut id m₀ (Tree.Outlined o) w) {p : Path}
    {q : Pathname} (hrun : copyEntry p (.member id q) w = (.ok (), w')) :
    ∃ c, p.content? w = some c ∧
      w₀.SameBut id m₀ (Tree.Outlined (o.place (ofPathname q) c)) w' := by
  have hrun := Action.get_bind_ok hrun
  cases hd : p.isDirectory w with
  | true =>
    rw [hd] at hrun
    exact ⟨.directory, Path.content?_directory.mpr hd, Path.ensureDirectory_fills hm h hrun⟩
  | false =>
    rw [hd] at hrun
    obtain ⟨data, hc, hfilled⟩ := Path.copy_fills hm h hd hrun
    exact ⟨.file data, hc, hfilled⟩

/-- An entry is copied to the key that the names leading to it come to. -/
theorem copyBeneath_fills (hm : m₀.Ready) (h : w₀.SameBut id m₀ (Tree.Outlined o) w) {s p : Path}
    (hs : s.IsOff id) (hne : s.pathname.bytes ≠ [] ∨ ∃ j q, s = .member j q) {r : List Filename}
    (hr : ∀ n ∈ r, IsSegment n) (hp : s.below? r = some p)
    (hrun : copyBeneath s (.member id ⟨[47]⟩) p w = (.ok (), w')) :
    (s.holds w₀ r).isSome ∧
      w₀.SameBut id m₀ (Tree.Outlined (o.add (s.holds w₀) r)) w' := by
  unfold copyBeneath at hrun
  obtain ⟨d, v, hask, hrest⟩ := Action.bind_ok hrun
  obtain ⟨hd, rfl⟩ := Action.ask_ok hask
  have hcopy := Action.noted_ok hrest
  unfold destination at hd
  cases htext : p.relativeTo s with
  | error e => rw [htext] at hd; cases hd
  | ok text =>
    have hkey := Path.ofText_relativeTo hne hr hp htext
    rw [htext] at hd
    change Except.ok (if text = "" then Path.member id ⟨[47]⟩
      else (Path.member id ⟨[47]⟩).resolve text) = .ok d at hd
    have htarget : ∃ q, d = .member id q ∧ ofPathname q = ofNames r := by
      by_cases hempty : text = ""
      · rw [if_pos hempty] at hd
        cases hd
        refine ⟨_, rfl, ?_⟩
        rw [← hkey, hempty]
        decide
      · rw [if_neg hempty] at hd
        cases hd
        exact ⟨_, rfl, (ofPathname_join_root text).trans hkey⟩
    obtain ⟨q, rfl, hq⟩ := htarget
    obtain ⟨c, hc, hfilled⟩ := copyEntry_fills hm h hcopy
    have hholds : s.holds w₀ r = some c := by
      rw [← h.holds_eq hs, Path.holds, hp]
      exact hc
    rw [hq] at hfilled
    rw [Outline.add, hholds]
    exact ⟨rfl, hfilled⟩

theorem forM_copyBeneath_fills (hm : m₀.Ready) (h : w₀.SameBut id m₀ (Tree.Outlined o) w) {s : Path}
    (hs : s.IsOff id) (hne : s.pathname.bytes ≠ [] ∨ ∃ j q, s = .member j q) {l : Listing}
    (hl : ∀ r ∈ l, ∀ n ∈ r, IsSegment n) {found : List Path}
    (hpaths : l.map s.below? = found.map some)
    (hrun : found.forM (copyBeneath s (.member id ⟨[47]⟩)) w = (.ok (), w')) :
    (∀ r ∈ l, (s.holds w₀ r).isSome) ∧
      w₀.SameBut id m₀ (Tree.Outlined (l.foldl (Outline.add (s.holds w₀)) o)) w' := by
  induction l generalizing o w found with
  | nil =>
    cases found with
    | cons p found => cases hpaths
    | nil =>
      obtain ⟨-, rfl⟩ := Action.pure_ok hrun
      exact ⟨fun r hr => (List.not_mem_nil hr).elim, h⟩
  | cons r l ih =>
    cases found with
    | nil => cases hpaths
    | cons p found =>
      rw [List.map_cons, List.map_cons, List.cons.injEq] at hpaths
      obtain ⟨u, v, hfirst, hrest⟩ := Action.bind_ok hrun
      obtain ⟨hsome, hfilled⟩ :=
        copyBeneath_fills hm h hs hne (hl r List.mem_cons_self) hpaths.1 hfirst
      obtain ⟨hall, hlast⟩ :=
        ih hfilled (fun r hr => hl r (List.mem_cons_of_mem _ hr)) hpaths.2 hrest
      refine ⟨?_, hlast⟩
      intro r' hr'
      rcases List.mem_cons.mp hr' with rfl | hr'
      · exact hsome
      · exact hall r' hr'

/-- Copying a directory, in the order of names, fills the members by a listing of just what the
directory holds. -/
theorem copyTree_fills (hw : w.WellFormed) (hm : m₀.Ready)
    (h : w₀.SameBut id m₀ (Tree.Outlined o) w) {s : Path} (hs : s.IsOff id)
    (hd : s.holds w₀ [] = some .directory)
    (hrun : copyTree s (.member id ⟨[47]⟩) .sorted w = (.ok (), w')) :
    ∃ l : Listing, l.Sorted ∧
      (∀ r, r ∈ l ↔ (∀ n ∈ r, IsSegment n) ∧ (s.holds w₀ r).isSome) ∧
        w₀.SameBut id m₀ (Tree.Outlined (l.foldl (Outline.add (s.holds w₀)) o)) w' := by
  unfold copyTree at hrun
  obtain ⟨found, v, hask, hrest⟩ := Action.bind_ok hrun
  obtain ⟨hwalk, rfl⟩ := Action.ask_ok hask
  have hdir := (h.holds_eq hs []).trans hd
  have hne : s.pathname.bytes ≠ [] ∨ ∃ j q, s = .member j q := by
    cases s with
    | proxy d fs => cases hd
    | host p => exact Or.inl (Path.ne_nil_of_holds hd rfl)
    | member j q => exact Or.inr ⟨j, q, rfl⟩
  obtain ⟨l, hl⟩ := Path.covers_of_walk hw hdir hwalk
  obtain ⟨hsome, hfilled⟩ := forM_copyBeneath_fills hm h hs hne hl.names hl.paths hrest
  refine ⟨l, hl.sorted, ?_, hfilled⟩
  intro r
  constructor
  · exact fun hr => ⟨hl.names r hr, hsome r hr⟩
  · rintro ⟨hr, hholds⟩
    rw [← h.holds_eq hs] at hholds
    exact hl.complete r hr hholds

end Archives

end ZipMount
