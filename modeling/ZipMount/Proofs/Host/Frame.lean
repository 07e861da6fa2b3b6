import Mathlib.Data.List.Induction
import ZipMount.Proofs.Host.Changes

namespace ZipMount

/-- The same, or files both. -/
def HostKind.Alike (k k' : HostKind) : Prop :=
  k' = k ∨ ∃ data data', k = .file data ∧ k' = .file data'

theorem HostKind.Alike.trans {k k' k'' : HostKind} (h : k.Alike k') (h' : k'.Alike k'') :
    k.Alike k'' := by
  rcases h with rfl | ⟨data, data', rfl, rfl⟩
  · exact h'
  · rcases h' with rfl | ⟨_, data'', -, rfl⟩
    · exact Or.inr ⟨data, data', rfl, rfl⟩
    · exact Or.inr ⟨data, data'', rfl, rfl⟩

namespace Host

/-- The same entry, or none; or a directory in which there is something new, and which has another
time for that. -/
def SameAt (h h' : Host) (l : Location) : Prop :=
  h'.node? l = h.node? l ∨ (h.kind? l = some .directory ∧ h'.kind? l = some .directory ∧
    ∃ n, h.kind? (l ++ [n]) = none ∧ h'.kind? (l ++ [n]) ≠ none)

/-- Nothing is gone, and no link is new; but files may have other contents. -/
structure Keeps (h h' : Host) : Prop where
  working : h'.workingDirectory = h.workingDirectory
  kind : ∀ l k, h.kind? l = some k → ∃ k', h'.kind? l = some k' ∧ k.Alike k'
  links : ∀ l target, h'.kind? l = some (.link target) → h.kind? l = some (.link target)

/-- Something was put where a path then leads, and nothing else changed. -/
structure Puts (h : Host) (p : Pathname) (l : Location) (k : HostKind) (h' : Host) : Prop where
  keeps : h.Keeps h'
  others : ∀ l', l' ≠ l → h.SameAt h' l'
  leads : h'.At p l k

variable {h h' h'' : Host} {p : Pathname} {l : Location} {k : HostKind}

theorem SameAt.refl (h : Host) (l : Location) : h.SameAt h l := Or.inl rfl

theorem SameAt.kind? (hs : h.SameAt h' l) : h'.kind? l = h.kind? l := by
  rcases hs with hs | ⟨hk, hk', -⟩
  · rw [Host.kind?, hs]
    rfl
  · rw [hk, hk']

theorem Keeps.refl (h : Host) : h.Keeps h :=
  ⟨rfl, fun _ k hk => ⟨k, hk, Or.inl rfl⟩, fun _ _ hl => hl⟩

theorem Keeps.trans (hk : h.Keeps h') (hk' : h'.Keeps h'') : h.Keeps h'' := by
  refine ⟨hk'.working.trans hk.working, ?_,
    fun l target hl => hk.links l target (hk'.links l target hl)⟩
  intro l k hkind
  obtain ⟨k', hkind', halike⟩ := hk.kind l k hkind
  obtain ⟨k'', hkind'', halike'⟩ := hk'.kind l k' hkind'
  exact ⟨k'', hkind'', halike.trans halike'⟩

theorem Keeps.ne_none (hk : h.Keeps h') (hn : h.kind? l ≠ none) : h'.kind? l ≠ none := by
  obtain ⟨k, hkind⟩ := Option.ne_none_iff_exists'.mp hn
  obtain ⟨k', hkind', -⟩ := hk.kind l k hkind
  rw [hkind']
  exact Option.some_ne_none k'

theorem SameAt.trans (hs : h.SameAt h' l) (hk : h.Keeps h') (hs' : h'.SameAt h'' l)
    (hk' : h'.Keeps h'') : h.SameAt h'' l := by
  rcases hs with hs₁ | ⟨hd, hd', n, hnone, hsome⟩
  · rcases hs' with hs₂ | ⟨hd, hd', n, hnone, hsome⟩
    · exact Or.inl (hs₂.trans hs₁)
    · have hold : h.kind? l = some .directory := by
        rw [Host.kind?, hs₁] at hd
        exact hd
      exact Or.inr ⟨hold, hd', n, not_not.mp (mt hk.ne_none (not_not.mpr hnone)), hsome⟩
  · exact Or.inr ⟨hd, hs'.kind?.trans hd', n, hnone, hk'.ne_none hsome⟩

theorem Keeps.directory (hk : h.Keeps h') (hd : h.kind? l = some .directory) :
    h'.kind? l = some .directory := by
  obtain ⟨k', hk', halike⟩ := hk.kind l _ hd
  rcases halike with rfl | ⟨_, _, hfile, -⟩
  · exact hk'
  · cases hfile

theorem Keeps.link (hk : h.Keeps h') {target : Pathname} (hl : h.kind? l = some (.link target)) :
    h'.kind? l = some (.link target) := by
  obtain ⟨k', hk', halike⟩ := hk.kind l _ hl
  rcases halike with rfl | ⟨_, _, hfile, -⟩
  · exact hk'
  · cases hfile

/-- Steps lead where they led. -/
theorem Keeps.leads (hk : h.Keeps h') {j : Nat} {a b : Location} {ss : List Step}
    (hl : h.Leads j a ss b) : h'.Leads j a ss b := by
  induction hl with
  | done loc => exact .done loc
  | stay hs hd _ ih => exact .stay hs (hk.directory hd) ih
  | up hd _ ih => exact .up (hk.directory hd) ih
  | name hd hn hkind hl _ ih =>
    obtain ⟨k', hk', halike⟩ := hk.kind _ _ hkind
    refine .name (hk.directory hd) hn hk' ?_ ih
    rcases halike with rfl | ⟨_, _, -, rfl⟩
    · exact hl
    · exact fun _ => HostKind.noConfusion
  | link hd hn hkind _ ih => exact .link (hk.directory hd) hn (hk.link hkind) ih

theorem Keeps.startOf (hk : h.Keeps h') (p : Pathname) : h'.startOf p = h.startOf p := by
  rw [Host.startOf, Host.startOf, hk.working]

/-- A path that led to a directory leads to it. -/
theorem At.keeps (hat : h.At p l .directory) (hk : h.Keeps h') : h'.At p l .directory := by
  obtain ⟨hne, hlt, ⟨j, hj, hl⟩, hkind⟩ := hat
  refine ⟨hne, hlt, ⟨j, hj, ?_⟩, hk.directory hkind⟩
  rw [hk.startOf]
  exact hk.leads hl

theorem node?_touch_of_ne (h : Host) (now : Instant) {dir : Location} (hl : l ≠ dir) :
    (h.touch now dir).node? l = h.node? l := by
  unfold touch
  split
  · next hd =>
    have hn : l ≠ [] := hd ▸ hl
    rw [node?, node?, if_neg hn, if_neg hn]
  · split
    · by_cases hn : l = []
      · rw [node?, node?, if_pos hn, if_pos hn]
      · rw [node?, node?, if_neg hn, if_neg hn, Table.get?_put, if_neg hl]
    · rfl

theorem node?_touch_self (h : Host) (now : Instant) (dir : Location) :
    (h.touch now dir).node? dir = h.node? dir ∨ h.kind? dir = some .directory := by
  unfold touch
  split
  · next hd =>
    subst hd
    exact Or.inr rfl
  · next hn =>
    split
    · next modified hm =>
      right
      rw [kind?_of_ne_nil hn, hm]
      rfl
    · exact Or.inl rfl

theorem node?_put (h : Host) {loc : Location} (hn : loc ≠ []) (node : HostNode) :
    ({ h with entries := h.entries.put loc node } : Host).node? l =
      if l = loc then some node else h.node? l := by
  by_cases hl : l = []
  · subst hl
    rw [if_neg (Ne.symm hn)]
    rfl
  · rw [node?, node?, if_neg hl, if_neg hl, Table.get?_put]

/-- A new entry leaves all others as they are, but for the time of the directory it is in. -/
theorem sameAt_add (now : Instant) {dir : Location} {n : Filename} {node : HostNode}
    (hfree : h.kind? (dir ++ [n]) = none) (hl : l ≠ dir ++ [n]) :
    h.SameAt (h.add now (dir ++ [n]) node) l := by
  have hn : dir ++ [n] ≠ [] := by simp
  have hadd : h.add now (dir ++ [n]) node =
      touch { h with entries := h.entries.put (dir ++ [n]) node } now dir := by
    rw [add, List.dropLast_concat]
  have hput : ({ h with entries := h.entries.put (dir ++ [n]) node } : Host).node? l = h.node? l := by
    rw [node?_put h hn, if_neg hl]
  by_cases hdir : l = dir
  · subst hdir
    have hnew : (h.add now (l ++ [n]) node).kind? (l ++ [n]) ≠ none := by
      rw [kind?_add h now hn, if_pos rfl]
      exact Option.some_ne_none _
    rcases node?_touch_self { h with entries := h.entries.put (l ++ [n]) node } now l with
      hsame | hd
    · left
      rw [hadd, hsame, hput]
    · right
      have hold : h.kind? l = some .directory := by
        rw [kind?, hput] at hd
        exact hd
      exact ⟨hold, kind?_add_of_some hfree hold, n, hfree, hnew⟩
  · left
    rw [hadd, node?_touch_of_ne _ now hdir, hput]

theorem keeps_add {now : Instant} {dir : Location} {n : Filename} {node : HostNode}
    (hfree : h.kind? (dir ++ [n]) = none) (hnode : ∀ target, node ≠ .link target) :
    h.Keeps (h.add now (dir ++ [n]) node) := by
  refine ⟨workingDirectory_touch _ _ _, ?_, ?_⟩
  · intro l k hk
    exact ⟨k, kind?_add_of_some hfree hk, Or.inl rfl⟩
  · intro l target hl
    rw [kind?_add h now (by simp)] at hl
    split at hl
    · cases node with
      | link t => exact absurd rfl (hnode t)
      | directory t => cases hl
      | file data t => cases hl
    · exact hl

theorem alter_of_ne_nil (h : Host) {loc : Location} (hn : loc ≠ []) (node : HostNode) :
    h.alter loc node = { h with entries := h.entries.put loc node } := if_neg hn

theorem keeps_alter {loc : Location} (hn : loc ≠ []) {data data' : ByteArray} {t : Instant}
    (hf : h.kind? loc = some (.file data)) : h.Keeps (h.alter loc (.file data' t)) := by
  rw [alter_of_ne_nil h hn]
  refine ⟨rfl, ?_, ?_⟩
  · intro l k hk
    rw [kind?_put h hn]
    by_cases hl : l = loc
    · subst hl
      rw [hf] at hk
      cases hk
      exact ⟨_, if_pos rfl, Or.inr ⟨data, data', rfl, rfl⟩⟩
    · exact ⟨k, (if_neg hl).trans hk, Or.inl rfl⟩
  · intro l target hl
    rw [kind?_put h hn] at hl
    split at hl
    · cases hl
    · exact hl

/-- What is put under a free name is where the steps that came to that name lead then. -/
theorem added_of_vacant {m : Manner} {steps : List Step} {dir : Location} {n : Filename}
    (ha : h.Advances m linkLimit (h.startOf p) steps (.vacant dir n))
    (hsteps : ∀ s, .name s ∈ steps → IsSegment s) {node : HostNode}
    (hnode : ∀ target, node ≠ .link target) (now : Instant) :
    h.kind? (dir ++ [n]) = none ∧ h.Keeps (h.add now (dir ++ [n]) node) ∧
      (∀ l, l ≠ dir ++ [n] → h.SameAt (h.add now (dir ++ [n]) node) l) ∧
      (h.add now (dir ++ [n]) node).kind? (dir ++ [n]) = some node.kind ∧
      ∃ j ≤ linkLimit, (h.add now (dir ++ [n]) node).Leads j
        ((h.add now (dir ++ [n]) node).startOf p) steps (dir ++ [n]) := by
  obtain ⟨-, hfree, -⟩ := vacant_of_advances ha hsteps
  have hkeeps : h.Keeps (h.add now (dir ++ [n]) node) := keeps_add hfree hnode
  have hnew : (h.add now (dir ++ [n]) node).kind? (dir ++ [n]) = some node.kind := by
    rw [kind?_add h now (by simp), if_pos rfl]
  have hkind : ∀ target, node.kind ≠ .link target := by
    intro target hlink
    cases node with
    | link t => exact hnode t rfl
    | directory t => cases hlink
    | file data t => cases hlink
  refine ⟨hfree, hkeeps, fun l hl => sameAt_add now hfree hl, hnew, ?_⟩
  rw [hkeeps.startOf]
  exact leads_of_vacant ha (fun l kind => kind?_add_of_some hfree) hnew hkind

/-- A directory that is made is where its path leads, and nothing was there. -/
theorem makeDirectory_puts {now : Instant} (hm : h.makeDirectory now p = .ok h') :
    ∃ l, h.kind? l = none ∧ h.Puts p l .directory h' := by
  obtain ⟨-, hr⟩ := onPath_ok hm
  obtain ⟨spot, hl, hr⟩ := bind_eq_ok hr
  cases spot with
  | entry l => cases hr
  | vacant dir n =>
    cases hr
    obtain ⟨hne, hlt, ha⟩ := lookup_ok.mp hl
    have hnode : ∀ target, HostNode.directory now ≠ .link target := fun _ => HostNode.noConfusion
    obtain ⟨hfree, hkeeps, hothers, hnew, j, hj, hleads⟩ := added_of_vacant
      (advances_of_advance ha) (fun s hs => Pathname.isSegment_of_mem_plainSteps hs) hnode now
    exact ⟨dir ++ [n], hfree, hkeeps, hothers, at_of_leads_plainSteps hne hlt hj hleads hnew⟩

/-- A file that gets other contents is where it was. -/
theorem altered_of_entry {m : Manner} (hm : m.followLast = true) {steps : List Step} {l : Location}
    (ha : h.Advances m linkLimit (h.startOf p) steps (.entry l)) {old : ByteArray}
    (hf : h.kind? l = some (.file old)) (data : ByteArray) (now : Instant) :
    h.Keeps (h.alter l (.file data now)) ∧
      (∀ l', l' ≠ l → h.SameAt (h.alter l (.file data now)) l') ∧
      (h.alter l (.file data now)).kind? l = some (.file data) ∧
      ∃ j ≤ linkLimit, (h.alter l (.file data now)).Leads j
        ((h.alter l (.file data now)).startOf p) steps l := by
  have hn : l ≠ [] := by
    rintro rfl
    cases hf
  have hkeeps : h.Keeps (h.alter l (.file data now)) := keeps_alter hn hf
  refine ⟨hkeeps, ?_, ?_, ?_⟩
  · intro l' hl'
    left
    rw [alter_of_ne_nil h hn, node?_put h hn, if_neg hl']
  · rw [alter_of_ne_nil h hn, kind?_put h hn, if_pos rfl]
    rfl
  · obtain ⟨j, hj, hleads⟩ := leads_of_advances (Or.inl hm) ha
    rw [hkeeps.startOf]
    exact ⟨j, hj, hkeeps.leads hleads⟩

/-- A file that is written is where its path leads. -/
theorem replace_puts {now : Instant} {data : ByteArray}
    (hm : h.write now p data .replace = .ok h') : ∃ l, h.Puts p l (.file data) h' := by
  obtain ⟨-, hr⟩ := onPath_ok hm
  change h.replace now p data = .ok h' at hr
  unfold replace at hr
  obtain ⟨spot, hl, hr⟩ := bind_eq_ok hr
  obtain ⟨hne, hlt, ha⟩ := lookup_ok.mp hl
  have hadvances := advances_of_advance ha
  cases spot with
  | entry l =>
    cases hnode : h.node? l with
    | none =>
      simp only [hnode] at hr
      cases hr
    | some node =>
      simp only [hnode] at hr
      cases node with
      | directory t => cases hr
      | link target => cases hr
      | file old t =>
        cases hr
        have hf : h.kind? l = some (.file old) := by
          rw [kind?, hnode]
          rfl
        obtain ⟨hkeeps, hothers, hnew, hleads⟩ := altered_of_entry rfl hadvances hf data now
        exact ⟨l, hkeeps, hothers, hne, hlt, hleads, hnew⟩
  | vacant dir n =>
    cases hr
    have hnode : ∀ target, HostNode.file data now ≠ .link target := fun _ => HostNode.noConfusion
    obtain ⟨-, hkeeps, hothers, hnew, hleads⟩ := added_of_vacant hadvances
      (fun s hs => Pathname.isSegment_of_mem_steps hs) hnode now
    exact ⟨dir ++ [n], hkeeps, hothers, hne, hlt, hleads, hnew⟩

/-- What is written can be read back. -/
theorem read_of_write {now : Instant} {data : ByteArray}
    (hwrite : h.write now p data .replace = .ok h') : h'.read p = .ok data := by
  obtain ⟨l, hputs⟩ := replace_puts hwrite
  exact read_of_at (onPath_ok hwrite).1 hputs.leads

/-- What a name at the end of a path leads to is that entry of the directory, or where it links. -/
theorem At.join_cases (hp : p.bytes ≠ []) {n : Filename} (hn : IsSegment n)
    (ha : h.At (p.join ⟨n⟩) l k) : ∃ dir, h.At p dir .directory ∧
      (l = dir ++ [n] ∨ ∃ target, h.kind? (dir ++ [n]) = some (.link target)) := by
  obtain ⟨-, hlt, ⟨j, hj, hl⟩, -⟩ := ha
  have hshort := Nat.lt_trans (Pathname.length_join hp hn) hlt
  rw [startOf_join hp hn, Pathname.steps_join hp hn] at hl
  obtain ⟨i, j', dir, hij, hdir, hlast⟩ := hl.split
  cases hlast with
  | stay hs hd hr =>
    rcases hs with hs | hs
    · cases hs
    · cases hs
  | name hd _ hk _ hr =>
    cases hr
    exact ⟨dir, at_of_leads_plainSteps hp hshort (by omega) hdir hd, Or.inl rfl⟩
  | link hd _ hk _ =>
    exact ⟨dir, at_of_leads_plainSteps hp hshort (by omega) hdir hd, Or.inr ⟨_, hk⟩⟩

/-- Nothing at or beneath a location is a link. -/
def Linkless (h : Host) (dir : Location) : Prop :=
  ∀ r target, h.kind? (dir ++ r) ≠ some (.link target)

theorem Linkless.keeps {dir : Location} (hno : h.Linkless dir) (hk : h.Keeps h') :
    h'.Linkless dir :=
  fun r target hl => hno r target (hk.links _ _ hl)

/-- Names put to a path lead to where they say, if there is no link in the directory it leads to. -/
theorem At.eq_of_under {dir : Location} (hp : h.At p dir .directory) (hno : h.Linkless dir)
    {names : List Filename} (hnames : ∀ n ∈ names, IsSegment n) (hat : h.At (p.under names) l k) :
    l = dir ++ names := by
  induction names using List.reverseRecOn generalizing l k with
  | nil =>
    obtain ⟨rfl, -⟩ := hp.unique hat
    exact (List.append_nil dir).symm
  | append_singleton init n ih =>
    have hn := hnames n (by simp)
    have hinit : ∀ m ∈ init, IsSegment m := fun m hm => hnames m (List.mem_append_left _ hm)
    have hne := Pathname.under_ne_nil hp.1 hinit
    rw [Pathname.under_concat] at hat
    obtain ⟨d, hd, hl⟩ := hat.join_cases hne hn
    have hd := ih hinit hd
    subst hd
    rcases hl with rfl | ⟨target, hlink⟩
    · exact List.append_assoc _ _ _
    · rw [List.append_assoc] at hlink
      exact absurd hlink (hno _ target)

end Host

end ZipMount
