import ZipMount.Archive.Image
import ZipMount.Proofs.MemberKey
import ZipMount.Proofs.Tree.Laws

namespace ZipMount.Tree

open MemberKey

/-- The shape of a tree; only the order of its keys matters. -/
structure WellFormed (t : Tree) : Prop where
  nodup : t.order.Nodup
  ne_nil : ∀ k ∈ t.order, k ≠ []
  canonical : ∀ k ∈ t.order, Canonical k
  closed : ∀ k ∈ t.order, parent k ≠ [] → parent k ∈ t.order
  /-- No key stands after one that is in it. -/
  forward : t.order.Pairwise fun j k => parent j ≠ k

/-- One operation that changes a tree, on a key made of names. -/
inductive Step (t : Tree) : Tree → Prop where
  | makeDirectory {now : Instant} {k : MemberKey} {t' : Tree} (hk : Canonical k)
      (h : t.makeDirectory now k = .ok t') : Step t t'
  | writeFile {now : Instant} {k : MemberKey} {data : ByteArray} {mode : WriteMode} {t' : Tree}
      (hk : Canonical k) (h : t.writeFile now k data mode = .ok t') : Step t t'
  | remove {k : MemberKey} {t' : Tree} (hk : Canonical k) (h : t.remove k = .ok t') : Step t t'
  | retime {k : MemberKey} {change : TimeChange} {t' : Tree} (hk : Canonical k)
      (h : t.retime k change = .ok t') : Step t t'

theorem wellFormed_of_order {t t' : Tree} (h : t.WellFormed) (ho : t'.order = t.order) :
    t'.WellFormed := by
  refine ⟨?_, ?_, ?_, ?_, ?_⟩
  · rw [ho]; exact h.nodup
  · rw [ho]; exact h.ne_nil
  · rw [ho]; exact h.canonical
  · rw [ho]; exact h.closed
  · rw [ho]; exact h.forward

theorem wellFormed_empty (now : Instant) : (empty now).WellFormed := by
  refine ⟨?_, ?_, ?_, ?_, ?_⟩ <;> simp [order_empty]

theorem WellFormed.insert_new {t : Tree} (h : t.WellFormed) {k : MemberKey} (hn : k ≠ [])
    (hc : Canonical k) (hp : parent k = [] ∨ parent k ∈ t.order) (hk : k ∉ t.order) (m : Member) :
    (t.insert k m).WellFormed := by
  refine ⟨Table.nodup_keys_put h.nodup k m, ?_, ?_, ?_, ?_⟩
  · intro j hj
    rcases mem_order_insert.mp hj with hj | rfl
    · exact h.ne_nil j hj
    · exact hn
  · intro j hj
    rcases mem_order_insert.mp hj with hj | rfl
    · exact h.canonical j hj
    · exact hc
  · intro j hj hjp
    apply mem_order_insert.mpr
    left
    rcases mem_order_insert.mp hj with hj | rfl
    · exact h.closed j hj hjp
    · exact hp.resolve_left hjp
  · rw [order_insert_new hk, List.pairwise_append]
    refine ⟨h.forward, List.pairwise_singleton _ k, ?_⟩
    intro j hj b hb hjb
    rw [List.mem_singleton] at hb
    subst hb
    -- the parent of a member is the root or a member, and the new key is neither
    apply hk
    rw [← hjb]
    apply h.closed j hj
    rw [hjb]
    exact hn

/-- Putting a member whose parent is there, new or in the place of another. -/
theorem WellFormed.insert {t : Tree} (h : t.WellFormed) {k : MemberKey} (hn : k ≠ [])
    (hc : Canonical k) (hp : parent k = [] ∨ parent k ∈ t.order) (m : Member) :
    (t.insert k m).WellFormed := by
  by_cases hk : k ∈ t.order
  · exact wellFormed_of_order h (order_insert_mem hk m)
  · exact h.insert_new hn hc hp hk m

theorem WellFormed.makeDirectory {t t' : Tree} (h : t.WellFormed) {now : Instant} {k : MemberKey}
    (hc : Canonical k) (hm : t.makeDirectory now k = .ok t') : t'.WellFormed := by
  obtain ⟨hf, hp, rfl⟩ := makeDirectory_ok hm
  have hn : k ≠ [] := by rintro rfl; cases hf
  exact h.insert hn hc (parent_mem_of_checkParent hp) _

theorem WellFormed.writeFile {t t' : Tree} (h : t.WellFormed) {now : Instant} {k : MemberKey}
    {data : ByteArray} {mode : WriteMode} (hc : Canonical k)
    (hm : t.writeFile now k data mode = .ok t') : t'.WellFormed := by
  obtain ⟨m, rfl, -, hn, hk | hp⟩ := writeFile_ok hm
  · exact wellFormed_of_order h (order_insert_mem hk m)
  · exact h.insert hn hc (parent_mem_of_checkParent hp) m

theorem WellFormed.remove {t t' : Tree} (h : t.WellFormed) {k : MemberKey}
    (hm : t.remove k = .ok t') : t'.WellFormed := by
  have ho := order_remove hm
  have hmem : ∀ j, j ∈ t'.order ↔ j ∈ t.order ∧ j ≠ k := by
    intro j
    rw [ho]
    simp
  refine ⟨?_, ?_, ?_, ?_, ?_⟩
  · rw [ho]; exact h.nodup.filter _
  · exact fun j hj => h.ne_nil j ((hmem j).mp hj).1
  · exact fun j hj => h.canonical j ((hmem j).mp hj).1
  · intro j hj hp
    have hj' := (hmem j).mp hj
    refine (hmem _).mpr ⟨h.closed j hj'.1 hp, ?_⟩
    intro he
    have hpre : k <+: j := he ▸ parent_isPrefix j
    exact hj'.2 (notMem_beneath_of_remove hm j hj'.1 hpre)
  · rw [ho]; exact h.forward.filter _

/-- Every operation keeps the shape. -/
theorem WellFormed.step {t t' : Tree} (h : t.WellFormed) (hs : t.Step t') : t'.WellFormed := by
  cases hs with
  | makeDirectory hk hm => exact h.makeDirectory hk hm
  | writeFile hk hm => exact h.writeFile hk hm
  | remove _ hm => exact h.remove hm
  | retime _ hm => exact wellFormed_of_order h (order_retime hm)

def ensure (time : Instant) (t : Tree) (p : MemberKey) : Tree :=
  if (t.find? p).isSome then t else t.insert p (.directory time)

theorem mem_order_ensure {t : Tree} {time : Instant} {p : MemberKey} (hp : p ≠ []) :
    p ∈ (ensure time t p).order := by
  unfold ensure
  split
  · next h => exact (mem_order_iff hp).mpr h
  · exact mem_order_insert.mpr (Or.inr rfl)

theorem WellFormed.ensure {t : Tree} (h : t.WellFormed) {time : Instant} {p : MemberKey}
    (hn : p ≠ []) (hc : Canonical p) (hp : parent p = [] ∨ parent p ∈ t.order) :
    (ensure time t p).WellFormed := by
  unfold Tree.ensure
  split
  · exact h
  · exact h.insert hn hc hp _

/-- The directories on the way from one that is there to a key beneath it, outermost first. -/
theorem WellFormed.ensure_starts {t : Tree} (h : t.WellFormed) (time : Instant)
    {base rest : MemberKey} (hc : Canonical (base ++ rest)) (hb : base = [] ∨ base ∈ t.order) :
    let t' := ((starts rest).map (base ++ ·)).foldl (Tree.ensure time) t
    t'.WellFormed ∧ (base ++ rest = [] ∨ base ++ rest ∈ t'.order) := by
  induction rest generalizing t base with
  | nil => simpa [starts] using ⟨h, hb⟩
  | cons s rest ih =>
    have hsplit : base ++ s :: rest = (base ++ [s]) ++ rest := by simp
    have hn : base ++ [s] ≠ [] := by simp
    have hcs : Canonical (base ++ [s]) := by
      intro x hx
      apply hc x
      rw [hsplit]
      exact List.mem_append_left _ hx
    have hw : (Tree.ensure time t (base ++ [s])).WellFormed := by
      apply h.ensure hn hcs
      rw [parent_concat]
      exact hb
    have hi := ih hw (hsplit ▸ hc) (Or.inr (mem_order_ensure hn))
    simpa [starts, Function.comp_def] using hi

theorem WellFormed.ensureParents {t : Tree} (h : t.WellFormed) {k : MemberKey} (hc : Canonical k)
    (time : Instant) :
    (t.ensureParents k time).WellFormed ∧
      (parent k = [] ∨ parent k ∈ (t.ensureParents k time).order) := by
  have hp : Canonical ([] ++ parent k) := canonical_parent hc
  have hs := h.ensure_starts time hp (Or.inl rfl)
  simp only [List.nil_append, List.map_id_fun', id_eq] at hs
  exact hs

theorem addEntry_eq (t : Tree) (e : Zip.Entry) :
    t.addEntry (.ok e) =
      if ofText e.name = [] then .ok t
      else match entryMember e with
        | .error f => .error (.io f)
        | .ok m => .ok ((t.ensureParents (ofText e.name) m.times.modified).insert
            (ofText e.name) m) := by
  change (if ofText e.name = [] then pure t else _) = _
  split
  · rfl
  · cases entryMember e <;> rfl

theorem WellFormed.addEntry {t t' : Tree} (h : t.WellFormed)
    {found : Except ZipFault Zip.Entry} (ha : t.addEntry found = .ok t') : t'.WellFormed := by
  cases found with
  | error f => cases ha
  | ok e =>
    rw [addEntry_eq] at ha
    split at ha
    · cases ha
      exact h
    · next hn =>
      split at ha
      · cases ha
      · next m hm =>
        cases ha
        have hc := canonical_ofText e.name
        have hp := h.ensureParents hc m.times.modified
        exact hp.1.insert hn hc hp.2 m

theorem wellFormed_ofEntries {now : Instant} {found : List (Except ZipFault Zip.Entry)} {t : Tree}
    (h : ofEntries now found = .ok t) : t.WellFormed := by
  suffices hfold : ∀ (es : List (Except ZipFault Zip.Entry)) (s : Tree), s.WellFormed →
      es.foldlM Tree.addEntry s = .ok t → t.WellFormed from
    hfold found (empty now) (wellFormed_empty now) h
  intro es
  induction es with
  | nil =>
    intro s hs he
    cases he
    exact hs
  | cons e es ih =>
    intro s hs he
    rw [List.foldlM_cons] at he
    obtain ⟨s', ha, he⟩ := bind_eq_ok he
    exact ih s' (hs.addEntry ha) he

theorem WellFormed.mem_of_prefix {t : Tree} (h : t.WellFormed) {p k : MemberKey}
    (hk : k ∈ t.order) (hp : p <+: k) (hn : p ≠ []) : p ∈ t.order := by
  by_cases hpk : p = k
  · rw [hpk]
    exact hk
  · have hpp := prefix_parent hp hpk
    have hkp : parent k ≠ [] := by
      intro he
      rw [he, List.prefix_nil] at hpp
      exact hn hpp
    have hlt := parent_length_lt (h.ne_nil k hk)
    exact h.mem_of_prefix (h.closed k hk hkp) hpp hn
termination_by k.length

/-- The directories above a key are there already. -/
theorem WellFormed.ensureParents_eq {t : Tree} (h : t.WellFormed) {k : MemberKey}
    (hp : parent k = [] ∨ parent k ∈ t.order) (time : Instant) : t.ensureParents k time = t := by
  have hfold : ∀ ps : List MemberKey, (∀ p ∈ ps, (t.find? p).isSome) →
      ps.foldl (Tree.ensure time) t = t := by
    intro ps
    induction ps with
    | nil => intro _; rfl
    | cons p ps ih =>
      intro hps
      have hstep : Tree.ensure time t p = t := if_pos (hps p List.mem_cons_self)
      rw [List.foldl_cons, hstep]
      exact ih fun q hq => hps q (List.mem_cons_of_mem _ hq)
  apply hfold
  intro p hps
  obtain ⟨hn, hpre⟩ := mem_starts hps
  apply (mem_order_iff hn).mp
  rcases hp with hp | hp
  · rw [hp, List.prefix_nil] at hpre
    exact absurd hpre hn
  · exact h.mem_of_prefix hp hpre hn

/-- The members up to some place make a tree of the same shape. -/
theorem WellFormed.take {root root' : Times} {done rest : Table MemberKey Member}
    (h : WellFormed ⟨root, done ++ rest⟩) : WellFormed ⟨root', done⟩ := by
  have ho : order ⟨root, done ++ rest⟩ = order ⟨root', done⟩ ++ rest.keys :=
    List.map_append
  obtain ⟨hnodup, hne, hcanonical, hclosed, hforward⟩ := h
  rw [ho] at hnodup hne hcanonical hclosed hforward
  rw [List.pairwise_append] at hforward
  refine ⟨(List.nodup_append.mp hnodup).1, ?_, ?_, ?_, hforward.1⟩
  · exact fun k hk => hne k (List.mem_append_left _ hk)
  · exact fun k hk => hcanonical k (List.mem_append_left _ hk)
  · intro k hk hp
    rcases List.mem_append.mp (hclosed k (List.mem_append_left _ hk) hp) with hd | hr
    · exact hd
    · exact absurd rfl (hforward.2.2 k hk _ hr)

/-- The parent of a member is the root or stands strictly earlier. -/
theorem WellFormed.parent_earlier {t : Tree} (h : t.WellFormed) {i : Nat} {k : MemberKey}
    (hi : t.order[i]? = some k) (hp : parent k ≠ []) : ∃ j < i, t.order[j]? = some (parent k) := by
  obtain ⟨hlt, hik⟩ := List.getElem?_eq_some_iff.mp hi
  have hk : k ∈ t.order := List.mem_of_getElem? hi
  obtain ⟨j, hj, hjp⟩ := List.mem_iff_getElem.mp (h.closed k hk hp)
  refine ⟨j, ?_, List.getElem?_eq_some_iff.mpr ⟨hj, hjp⟩⟩
  rcases Nat.lt_trichotomy j i with hlt' | rfl | hgt
  · exact hlt'
  · exact absurd (hjp.symm.trans hik) (parent_ne_self (h.ne_nil k hk))
  · have hf := List.pairwise_iff_getElem.mp h.forward i j hlt hj hgt
    rw [hik, hjp] at hf
    exact absurd rfl hf

theorem WellFormed.get?_of_mem {t : Tree} (h : t.WellFormed) {km : MemberKey × Member}
    (hkm : km ∈ t.members) : t.find? km.1 = some km.2 := by
  have hmem : km.1 ∈ t.order := List.mem_map_of_mem hkm
  rw [find?_of_ne_nil _ (h.ne_nil _ hmem)]
  exact Table.get?_of_mem h.nodup hkm

end ZipMount.Tree
