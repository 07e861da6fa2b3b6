import ZipMount.Proofs.Archives.Mirror
import ZipMount.Proofs.Host.Names
import ZipMount.Proofs.Rose.Simulation

namespace ZipMount

open MemberKey

/-- Results that are related, or errors both. -/
inductive Concur {α β ε ε' : Type} (R : α → β → Prop) : Except ε α → Except ε' β → Prop where
  | ok {a : α} {b : β} (h : R a b) : Concur R (.ok a) (.ok b)
  | error (e : ε) (e' : ε') : Concur R (.error e) (.error e')

/-- A path that leads to a directory with nothing in it. -/
structure Host.EmptyAt (h : Host) (p : Pathname) (loc : Location) : Prop where
  wellFormed : h.WellFormed
  leads : h.At p loc .directory
  noZero : p.hasZero = false
  empty : h.namesIn loc = []

/-- A key that names something other than the root, within the limits of hosts. -/
structure MemberKey.Suits (k : MemberKey) (p : Pathname) : Prop where
  ne_nil : k ≠ []
  fits : p.Fits k.filenames

/-- Members and a directory that hold the same under the same names. To start with the directory
was empty; since then nothing was lost on the host, and nothing was put beneath the directory that
is not within the limits. -/
structure Twin (start : Host) (p : Pathname) (loc : Location) (t : Tree) (h : Host) : Prop where
  origin : start.EmptyAt p loc
  tree : t.WellFormed
  host : h.WellFormed
  working : h.workingDirectory = start.workingDirectory
  kept : ∀ l kind, start.kind? l = some kind → h.kind? l = some kind
  mirrors : t.Mirrors h loc
  fits : ∀ k : MemberKey, t.kind? k ≠ none → p.Fits k.filenames

variable {start h : Host} {p : Pathname} {loc : Location} {t t' : Tree} {k : MemberKey}

/-- Nothing is beneath the directory to start with. -/
theorem Host.EmptyAt.kind?_eq_none (hs : start.EmptyAt p loc) {names : List Filename}
    (hne : names ≠ []) : start.kind? (loc ++ names) = none := by
  by_contra hsome
  obtain ⟨n, rest, rfl⟩ := List.exists_cons_of_ne_nil hne
  have hfirst : start.kind? (loc ++ [n]) ≠ none := by
    by_cases hrest : rest = []
    · rw [← hrest]
      exact hsome
    · obtain ⟨kind, hkind⟩ := Option.ne_none_iff_exists'.mp hsome
      rw [List.append_cons] at hkind
      rw [hs.wellFormed.kind?_prefix hkind hrest]
      exact Option.some_ne_none _
  obtain ⟨kind, hkind⟩ := Option.ne_none_iff_exists'.mp hfirst
  have hin := Host.mem_namesIn.mpr (Host.mem_keys_of_kind? (by simp) hkind)
  rw [hs.empty] at hin
  cases hin

namespace MemberKey.Suits

theorem hasZero (hk : k.Suits p) (hz : p.hasZero = false) : (p.under k.filenames).hasZero = false :=
  Pathname.hasZero_under hz fun n hn => (hk.fits.bounded n hn).2

theorem canonical (hk : k.Suits p) : Canonical k := canonical_of_isSegment hk.fits.segments

theorem filenames_ne_nil (hk : k.Suits p) : k.filenames ≠ [] :=
  fun hnil => hk.ne_nil (List.map_eq_nil_iff.mp hnil)

end MemberKey.Suits

namespace Tree

theorem kind?_eq_none_iff : t.kind? k = none ↔ t.find? k = none := Option.map_eq_none_iff

theorem mem_names {s : String} : s ∈ t.names k ↔ t.kind? (k ++ [s]) ≠ none := by
  have hn : k ++ [s] ≠ [] := by simp
  have hkind : t.kind? (k ++ [s]) ≠ none ↔ k ++ [s] ∈ t.order := by
    rw [mem_order_iff hn, Option.isSome_iff_ne_none, ne_eq, kind?_eq_none_iff]
  rw [hkind]
  constructor
  · intro hs
    have hbelow : k ++ [s] ∈ t.below k := by
      rw [below_eq_map]
      exact List.mem_map_of_mem hs
    exact (mem_below.mp hbelow).1
  · intro hk
    have hbelow := mem_below.mpr ⟨hk, hn, parent_concat k s⟩
    rw [below_eq_map] at hbelow
    obtain ⟨r, hr, heq⟩ := List.mem_map.mp hbelow
    cases List.append_cancel_left heq
    exact hr

end Tree

theorem Host.kind?_drop_self (h : Host) (now : Instant) {l : Location} (hl : l ≠ []) :
    (h.drop now l).kind? l = none := by
  rw [drop, kind?_touch, kind?_of_ne_nil hl, Table.get?_erase, if_pos rfl]
  rfl

/-- What is found on the host of a name, as the members have it. -/
inductive Tree.Stands (t : Tree) (h : Host) (loc : Location) (k : MemberKey) :
    Except Errno Spot → Prop where
  | directory {times : Times} {modified : Instant} (hx : t.find? k = some ⟨.directory, times⟩)
      (hnode : h.node? (loc ++ k.filenames) = some (.directory modified)) :
      Stands t h loc k (.ok (.entry (loc ++ k.filenames)))
  | file {data : ByteArray} {times : Times} {modified : Instant}
      (hx : t.find? k = some ⟨.file data, times⟩)
      (hnode : h.node? (loc ++ k.filenames) = some (.file data modified)) :
      Stands t h loc k (.ok (.entry (loc ++ k.filenames)))
  | vacant {n : Filename} (hn : k.filenames = (parent k).filenames ++ [n]) (hx : t.find? k = none)
      (hparent : t.checkParent k = .ok ()) :
      Stands t h loc k (.ok (.vacant (loc ++ (parent k).filenames) n))
  | unreached {r : Refusal} (hx : t.find? k = none) (hparent : t.checkParent k = .error r)
      (e : Errno) : Stands t h loc k (.error e)

namespace Twin

theorem plain (ht : Twin start p loc t h) : h.Plain p loc := by
  have hkey : ∀ r, h.kind? (loc ++ r) ≠ none → p.Fits r := by
    intro r hr
    obtain ⟨k, rfl⟩ := ht.mirrors.names r hr
    rw [← ht.mirrors.kinds] at hr
    exact ht.fits k hr
  refine ⟨ht.origin.leads.mono ht.kept ht.working, ht.origin.noZero, ?_,
    fun r hr => (hkey r hr).bounded, fun r hr => (hkey r hr).short⟩
  intro r target hlink
  obtain ⟨k, rfl⟩ := ht.mirrors.names r (by rw [hlink]; exact Option.some_ne_none _)
  rw [← ht.mirrors.kinds, Tree.kind?, Option.map_eq_some_iff] at hlink
  obtain ⟨⟨content, times⟩, -, hcontent⟩ := hlink
  cases content with
  | directory => cases hcontent
  | file data => cases hcontent

/-- An empty tree and an empty directory. -/
theorem empty (hs : start.EmptyAt p loc) (now : Instant) : Twin start p loc (.empty now) start := by
  refine ⟨hs, Tree.wellFormed_empty now, hs.wellFormed, rfl, fun _ _ hk => hk, ⟨?_, ?_⟩, ?_⟩
  · intro k
    by_cases hk : k = []
    · have hroot : loc ++ filenames [] = loc := List.append_nil loc
      rw [hk, hroot, hs.leads.kind]
      rfl
    · have hne : k.filenames ≠ [] := fun hnil => hk (List.map_eq_nil_iff.mp hnil)
      rw [hs.kind?_eq_none hne, Tree.kind?_eq_none_iff, Tree.find?_empty now hk]
  · intro r hr
    by_cases hne : r = []
    · exact ⟨[], hne⟩
    · exact absurd (hs.kind?_eq_none hne) hr
  · intro k hk
    by_cases hne : k = []
    · rw [hne]
      exact ⟨fun _ hn => (List.not_mem_nil hn).elim, fun _ hn => (List.not_mem_nil hn).elim,
        hs.leads.length_lt⟩
    · exact absurd (Tree.kind?_eq_none_iff.mpr (Tree.find?_empty now hne)) hk

/-- The same put under the same name, or taken from it. -/
theorem change {h' : Host} (ht : Twin start p loc t h) (hk : k.Suits p) {c : Option HostKind}
    (htree : t'.WellFormed)
    (hkinds : ∀ j, t'.kind? j = if j = k then c else t.kind? j)
    (hhost : h'.kind? h.workingDirectory = some .directory → h'.WellFormed)
    (hworking : h'.workingDirectory = h.workingDirectory)
    (hkinds' : ∀ l, h'.kind? l = if l = loc ++ k.filenames then c else h.kind? l) :
    Twin start p loc t' h' := by
  have hkept : ∀ l kind, start.kind? l = some kind → h'.kind? l = some kind := by
    intro l kind hl
    have hother : l ≠ loc ++ k.filenames := by
      rintro rfl
      rw [ht.origin.kind?_eq_none hk.filenames_ne_nil] at hl
      cases hl
    rw [hkinds', if_neg hother]
    exact ht.kept l kind hl
  refine ⟨ht.origin, htree, hhost ?_, hworking.trans ht.working, hkept, ⟨?_, ?_⟩, ?_⟩
  · rw [ht.working]
    exact hkept _ _ ht.origin.wellFormed.working
  · intro j
    rw [hkinds, hkinds', ht.mirrors.kinds]
    by_cases hj : j = k
    · rw [if_pos hj, if_pos (hj ▸ rfl)]
    · rw [if_neg hj, if_neg fun heq => hj (filenames_inj (List.append_cancel_left heq))]
  · intro r hr
    rw [hkinds'] at hr
    split at hr
    · next hsame => exact ⟨k, List.append_cancel_left hsame⟩
    · exact ht.mirrors.names r hr
  · intro j hj
    rw [hkinds] at hj
    split at hj
    · next hsame =>
      rw [hsame]
      exact hk.fits
    · exact ht.fits j hj

/-- The names in a directory are those of the members in it. -/
theorem namesIn_perm (ht : Twin start p loc t h) (k : MemberKey) :
    (h.namesIn (loc ++ k.filenames)).Perm ((t.names k).map Text.bytes) := by
  have hnodup : ((t.names k).map Text.bytes).Nodup :=
    List.pairwise_map.mpr ((ht.tree.nodup_names k).imp fun hne hsame => hne (Text.bytes_inj hsame))
  rw [List.perm_ext_iff_of_nodup (ht.host.nodup_namesIn _) hnodup]
  intro n
  have hroot : loc ++ k.filenames ++ [n] ≠ [] := by simp
  have hin : n ∈ h.namesIn (loc ++ k.filenames) ↔ h.kind? (loc ++ (k.filenames ++ [n])) ≠ none := by
    rw [Host.mem_namesIn, ← List.append_assoc]
    constructor
    · intro hmem
      obtain ⟨kind, hkind⟩ := Host.exists_kind?_of_mem hroot hmem
      rw [hkind]
      exact Option.some_ne_none kind
    · intro hsome
      obtain ⟨kind, hkind⟩ := Option.ne_none_iff_exists'.mp hsome
      exact Host.mem_keys_of_kind? hroot hkind
  rw [hin, List.mem_map]
  constructor
  · intro hsome
    obtain ⟨j, hj⟩ := ht.mirrors.names _ hsome
    obtain ⟨init, s, rfl⟩ : ∃ (init : MemberKey) (s : String), j = init ++ [s] := by
      have hne : j ≠ [] := by
        rintro rfl
        exact absurd hj (by simp [filenames])
      exact ⟨_, _, (List.dropLast_concat_getLast hne).symm⟩
    obtain ⟨hinit, hlast⟩ := List.append_inj' (hj.trans (filenames_append init [s])) rfl
    cases filenames_inj hinit
    cases hlast
    refine ⟨s, Tree.mem_names.mpr ?_, rfl⟩
    rw [ht.mirrors.kinds, filenames_append]
    exact hsome
  · rintro ⟨s, hs, rfl⟩
    have hsome := Tree.mem_names.mp hs
    rw [ht.mirrors.kinds, filenames_append] at hsome
    exact hsome

theorem isOccupied_eq (ht : Twin start p loc t h) (k : MemberKey) :
    h.isOccupied (loc ++ k.filenames) = t.hasBeneath k := by
  have hperm := ht.namesIn_perm k
  rw [Bool.eq_iff_iff, ht.tree.hasBeneath_iff, Host.isOccupied, bne_iff_ne]
  refine not_congr ⟨fun hnil => ?_, fun hnil => ?_⟩
  · rw [hnil, List.nil_perm, List.map_eq_nil_iff] at hperm
    exact hperm
  · rw [hnil, List.map_nil, List.perm_nil] at hperm
    exact hperm

/-- What is found of a name is told by the members. -/
theorem stands (ht : Twin start p loc t h) (hk : k.Suits p) (m : Manner) :
    t.Stands h loc k (h.lookup m (p.under k.filenames) (p.under k.filenames).plainSteps) := by
  obtain ⟨n, hn⟩ := filenames_eq_concat hk.ne_nil
  have hfinds := ht.plain.lookup_under ht.host (hn ▸ hk.fits) m
  have hself : h.kind? (loc ++ (parent k).filenames ++ [n]) = t.kind? k := by
    rw [ht.mirrors.kinds, hn, List.append_assoc]
  have hparent : h.kind? (loc ++ (parent k).filenames) = some .directory ↔
      t.checkParent k = .ok () := by
    rw [Tree.checkParent_iff_kind?, ht.mirrors.kinds]
  rw [← hn] at hfinds
  generalize h.lookup m (p.under k.filenames) (p.under k.filenames).plainSteps = found at hfinds ⊢
  cases hfinds with
  | @entry kind hkind =>
    have hplace := hkind
    rw [hself, Tree.kind?, Option.map_eq_some_iff] at hkind
    obtain ⟨⟨content, times⟩, hx, rfl⟩ := hkind
    rw [List.append_assoc, ← hn] at hplace ⊢
    rw [Host.kind?, Option.map_eq_some_iff] at hplace
    obtain ⟨node, hnode, hsame⟩ := hplace
    cases content with
    | directory =>
      cases node with
      | directory modified => exact .directory hx hnode
      | file data modified => cases hsame
      | link target => cases hsame
    | file data =>
      cases node with
      | directory modified => cases hsame
      | file data' modified =>
        cases hsame
        exact .file hx hnode
      | link target => cases hsame
  | vacant hd hfree =>
    rw [hself] at hfree
    exact .vacant hn (Tree.kind?_eq_none_iff.mp hfree) (hparent.mp hd)
  | unreached hd hfree e =>
    rw [hself] at hfree
    cases hcheck : t.checkParent k with
    | ok u => exact absurd (hparent.mpr hcheck) hd
    | error r => exact .unreached (Tree.kind?_eq_none_iff.mp hfree) hcheck e

theorem steps_eq (ht : Twin start p loc t h) (hk : k.Suits p) :
    (p.under k.filenames).steps = (p.under k.filenames).plainSteps := by
  obtain ⟨before, hsteps, hplain⟩ := ht.plain.steps_under hk.fits.segments hk.filenames_ne_nil
  exact hsteps.trans hplain.symm

/-- The same put under a name that is free. -/
theorem add (ht : Twin start p loc t h) (hk : k.Suits p) (hx : t.find? k = none)
    (hparent : t.checkParent k = .ok ()) {n : Filename}
    (hn : k.filenames = (parent k).filenames ++ [n]) {x : Member} {node : HostNode}
    (hsame : node.kind = x.content.kind) (now : Instant) :
    Twin start p loc (t.insert k x) (h.add now (loc ++ (parent k).filenames ++ [n]) node) := by
  have hplace : loc ++ (parent k).filenames ++ [n] = loc ++ k.filenames := by
    rw [hn, List.append_assoc]
  have hd : h.kind? (loc ++ (parent k).filenames) = some .directory := by
    rw [← ht.mirrors.kinds]
    exact Tree.checkParent_iff_kind?.mp hparent
  have hfree : h.kind? (loc ++ (parent k).filenames ++ [n]) = none := by
    rw [hplace, ← ht.mirrors.kinds]
    exact Tree.kind?_eq_none_iff.mpr hx
  have hsegment : IsSegment n := hk.fits.segments n (by rw [hn]; simp)
  refine ht.change hk
    (ht.tree.insert hk.ne_nil hk.canonical (Tree.parent_mem_of_checkParent hparent) x)
    (Tree.kind?_insert t hk.ne_nil x) (fun _ => ht.host.add now hd hsegment hfree node)
    (Host.workingDirectory_touch _ _ _) ?_
  intro l
  rw [Host.kind?_add h now (by simp), hplace, hsame]

/-- Other contents of a file. -/
theorem alter (ht : Twin start p loc t h) (hk : k.Suits p) {old data : ByteArray} {times : Times}
    {modified : Instant} (hx : t.find? k = some ⟨.file old, times⟩)
    (hnode : h.node? (loc ++ k.filenames) = some (.file old modified)) (times' : Times)
    (now : Instant) :
    Twin start p loc (t.insert k ⟨.file data, times'⟩)
      (h.alter (loc ++ k.filenames) (.file data now)) := by
  have hne : loc ++ k.filenames ≠ [] := by simp [hk.filenames_ne_nil]
  have hput := Host.alter_of_ne_nil h hne (.file data now)
  refine ht.change hk
    (Tree.wellFormed_of_order ht.tree
      (Tree.order_insert_mem (Tree.mem_order_of_find hk.ne_nil hx) _))
    (Tree.kind?_insert t hk.ne_nil _) (fun _ => ht.host.alter hnode nofun) ?_ ?_
  · rw [hput]
  · intro l
    rw [hput, Host.kind?_put h hne]
    rfl

/-- What was under a name taken out, nothing being beneath it. -/
theorem drop (ht : Twin start p loc t h) (hk : k.Suits p) (hremove : t.remove k = .ok t')
    (hbeneath : t.hasBeneath k = false) (now : Instant) :
    Twin start p loc t' (h.drop now (loc ++ k.filenames)) := by
  have hroot : loc ++ k.filenames ≠ [] := by simp [hk.filenames_ne_nil]
  have hempty : h.namesIn (loc ++ k.filenames) = [] := by
    have hfree := (ht.isOccupied_eq k).trans hbeneath
    rw [Host.isOccupied, bne_eq_false_iff_eq] at hfree
    exact hfree
  have htree := ht.tree.remove hremove
  obtain ⟨-, rfl⟩ := Tree.remove_ok hremove
  refine ht.change (c := none) hk htree ?_ (fun hcwd => ht.host.drop now hempty hcwd)
    (Host.workingDirectory_touch _ _ _) ?_
  · intro j
    rw [Tree.kind?, Tree.find?_erase t hk.ne_nil]
    split <;> rfl
  · intro l
    by_cases hl : l = loc ++ k.filenames
    · rw [if_pos hl, hl, Host.kind?_drop_self h now hroot]
    · rw [if_neg hl, Host.kind?_drop h now hl]

theorem makeDirectory (ht : Twin start p loc t h) (hk : k.Suits p) (now now' : Instant) :
    Concur (Twin start p loc) (t.makeDirectory now k)
      (h.makeDirectory now' (p.under k.filenames)) := by
  have hstands := ht.stands hk .itself
  rw [Tree.makeDirectory_eq, Host.makeDirectory_eq (hk.hasZero ht.origin.noZero)]
  generalize h.lookup .itself (p.under k.filenames) (p.under k.filenames).plainSteps = found
    at hstands ⊢
  cases hstands with
  | directory hx =>
    rw [hx]
    exact .error _ _
  | file hx =>
    rw [hx]
    exact .error _ _
  | unreached hx hparent =>
    rw [hx, hparent]
    exact .error _ _
  | vacant hn hx hparent =>
    rw [hx, hparent]
    exact .ok (ht.add hk hx hparent hn rfl now')

theorem create (ht : Twin start p loc t h) (hk : k.Suits p) (data : ByteArray)
    (now now' : Instant) :
    Concur (Twin start p loc) (t.writeFile now k data .createNew)
      (h.write now' (p.under k.filenames) data .createNew) := by
  have hstands := ht.stands hk .creating
  rw [Tree.writeFile_eq, Host.create_eq (hk.hasZero ht.origin.noZero) (ht.steps_eq hk)]
  generalize h.lookup .creating (p.under k.filenames) (p.under k.filenames).plainSteps = found
    at hstands ⊢
  cases hstands with
  | directory hx =>
    rw [hx]
    exact .error _ _
  | file hx =>
    rw [hx]
    exact .error _ _
  | unreached hx hparent =>
    rw [hx, hparent]
    exact .error _ _
  | vacant hn hx hparent =>
    rw [hx, hparent]
    exact .ok (ht.add hk hx hparent hn rfl now')

theorem replace (ht : Twin start p loc t h) (hk : k.Suits p) (data : ByteArray)
    (now now' : Instant) :
    Concur (Twin start p loc) (t.writeFile now k data .replace)
      (h.write now' (p.under k.filenames) data .replace) := by
  have hstands := ht.stands hk .writing
  rw [Tree.writeFile_eq, Host.replace_eq (hk.hasZero ht.origin.noZero) (ht.steps_eq hk)]
  generalize h.lookup .writing (p.under k.filenames) (p.under k.filenames).plainSteps = found
    at hstands ⊢
  cases hstands with
  | directory hx hnode =>
    simp only [hx, hnode]
    exact .error _ _
  | file hx hnode =>
    simp only [hx, hnode]
    exact .ok (ht.alter hk hx hnode _ now')
  | unreached hx hparent =>
    rw [hx, hparent]
    exact .error _ _
  | vacant hn hx hparent =>
    rw [hx, hparent]
    exact .ok (ht.add hk hx hparent hn rfl now')

theorem write (ht : Twin start p loc t h) (hk : k.Suits p) (data : ByteArray) (mode : WriteMode)
    (now now' : Instant) :
    Concur (Twin start p loc) (t.writeFile now k data mode)
      (h.write now' (p.under k.filenames) data mode) := by
  cases mode with
  | createNew => exact ht.create hk data now now'
  | replace => exact ht.replace hk data now now'

theorem remove (ht : Twin start p loc t h) (hk : k.Suits p) (now : Instant) :
    Concur (Twin start p loc) (t.remove k) (h.remove now (p.under k.filenames)) := by
  have hstands := ht.stands hk .itself
  obtain ⟨before, -, hplain⟩ := ht.plain.steps_under hk.fits.segments hk.filenames_ne_nil
  have hremove := Tree.remove_eq t k
  rw [if_neg hk.ne_nil] at hremove
  have hthere : ∀ x, t.find? k = some x → Concur (Twin start p loc) (t.remove k)
      (if h.isOccupied (loc ++ k.filenames) then .error (.host .notEmpty)
        else .ok (h.drop now (loc ++ k.filenames)) : Except IoFault Host) := by
    intro x hx
    rw [hx] at hremove
    rw [ht.isOccupied_eq]
    cases hbeneath : t.hasBeneath k with
    | true =>
      simp only [hbeneath, if_true] at hremove
      rw [hremove]
      exact .error _ _
    | false =>
      simp only [hbeneath, Bool.false_eq_true, if_false] at hremove
      rw [hremove]
      exact .ok (ht.drop hk hremove hbeneath now)
  rw [Host.remove_eq ht.host (hk.hasZero ht.origin.noZero) (ht.steps_eq hk) hplain]
  generalize h.lookup .itself (p.under k.filenames) (p.under k.filenames).plainSteps = found
    at hstands ⊢
  cases hstands with
  | directory hx hnode =>
    simp only [hnode]
    exact hthere _ hx
  | file hx hnode =>
    simp only [hnode]
    exact hthere _ hx
  | unreached hx =>
    rw [hremove, hx]
    exact .error _ _
  | vacant hn hx =>
    rw [hremove, hx]
    exact .error _ _

theorem read (ht : Twin start p loc t h) (hk : k.Suits p) :
    Concur Eq (t.read k) (h.read (p.under k.filenames)) := by
  have hstands := ht.stands hk .target
  rw [Tree.read_eq, Host.read_eq (hk.hasZero ht.origin.noZero) (ht.steps_eq hk)]
  generalize h.lookup .target (p.under k.filenames) (p.under k.filenames).plainSteps = found
    at hstands ⊢
  cases hstands with
  | directory hx hnode =>
    simp only [hx, hnode]
    exact .error _ _
  | file hx hnode =>
    simp only [hx, hnode]
    exact .ok rfl
  | unreached hx =>
    rw [hx]
    exact .error _ _
  | vacant hn hx =>
    rw [hx]
    exact .error _ _

/-- The keys in a directory, and the names that the host has in it. -/
theorem list (ht : Twin start p loc t h) (hk : k.Suits p) :
    Concur (fun ks names => ∃ ss : List String, (∀ s ∈ ss, (k ++ [s]).Suits p) ∧
        ks = ss.map (fun s => k ++ [s]) ∧ names.Perm (ss.map Text.bytes))
      (t.list k) (h.list (p.under k.filenames)) := by
  have hstands := ht.stands hk .target
  rw [Tree.list_eq, Host.list_eq (hk.hasZero ht.origin.noZero) (ht.steps_eq hk)]
  generalize h.lookup .target (p.under k.filenames) (p.under k.filenames).plainSteps = found
    at hstands ⊢
  cases hstands with
  | directory hx hnode =>
    simp only [hx, hnode]
    exact .ok ⟨t.names k, fun s hs => ⟨by simp, ht.fits _ (Tree.mem_names.mp hs)⟩,
      Tree.below_eq_map t k, ht.namesIn_perm k⟩
  | file hx hnode =>
    simp only [hx, hnode]
    exact .error _ _
  | unreached hx =>
    rw [hx]
    exact .error _ _
  | vacant hn hx =>
    rw [hx]
    exact .error _ _

end Twin

end ZipMount
