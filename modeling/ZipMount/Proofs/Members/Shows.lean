import Mathlib.Data.List.Induction
import Mathlib.Data.List.Perm.Subperm
import ZipMount.Proofs.Members.Texts
import ZipMount.Proofs.Tree.Visits

namespace ZipMount

theorem Table.get?_map_values {α β γ : Type} [DecidableEq α] (t : Table α β) (f : β → γ) (k : α) :
    Table.get? (t.map fun kv => (kv.1, f kv.2)) k = (t.get? k).map f := by
  induction t with
  | nil => rfl
  | cons kv t ih =>
    rw [List.map_cons, get?_cons, get?_cons]
    split
    · rfl
    · exact ih

/-- A walk comes to no member twice. -/
theorem Tree.WellFormed.length_preorder_le {t : Tree} (h : t.WellFormed) (order : WalkOrder)
    {k : MemberKey} {n : Nat} (hn : t.height ≤ k.length + n) :
    (t.preorder order n k).length ≤ t.order.length + 1 := by
  have hsub : t.preorder order n k ⊆ k :: t.order := by
    intro j hj
    rcases (h.mem_preorder order hn).mp hj with rfl | ⟨hj, -⟩
    · exact List.mem_cons_self
    · exact List.mem_cons_of_mem k hj
  exact (List.subperm_of_subset (h.visits_preorder order hn).nodup hsub).length_le

namespace Members

open MemberKey

variable {ms ms' : Members} {t t' : Tree} {k : MemberKey}

theorem find_eq (ms : Members) (key : String) :
    find key ms = match ms.entries.get? key with
      | some m => (.ok m, ms)
      | none => (.error .missing, ms) := by
  change (match ms.entries.get? key with
    | some m => (pure m : Work Member)
    | none => (throw Refusal.missing : Work Member)) ms = _
  cases ms.entries.get? key <;> rfl

theorem checkParent_eq (ms : Members) (key : String) :
    checkParent key ms = match ms.entries.get? (beforeLastSlash key) with
      | some p => if p.isDirectory then (.ok (), ms) else (.error .notADirectory, ms)
      | none => (.error .missing, ms) := by
  rw [checkParent, runBind_eq, find_eq]
  cases ms.entries.get? (beforeLastSlash key) with
  | none => rfl
  | some p => cases hp : p.isDirectory <;> simp [hp] <;> rfl

theorem setTimes_eq (ms : Members) (key : String) (change : TimeChange) :
    setTimes key change ms = match ms.entries.get? key with
      | some m => (.ok (), ms.set key { m with times := m.times.changed change })
      | none => (.error .missing, ms) := by
  rw [setTimes, runBind_eq, find_eq]
  cases ms.entries.get? key <;> rfl

theorem makeDirectory_eq (ms : Members) (now : Instant) (key : String) :
    makeDirectory now key ms = match ms.entries.get? key with
      | some _ => (.error .present, ms)
      | none => match checkParent key ms with
        | (.ok (), ms') => (.ok (), ms'.insert key (.directory now))
        | (.error e, ms') => (.error e, ms') := by
  change (if (ms.entries.get? key).isSome then (throw .present : Work Unit)
    else checkParent key >>= fun _ => modify fun ms => ms.insert key (.directory now)) ms = _
  cases ms.entries.get? key with
  | some m => rfl
  | none =>
    change (checkParent key >>= fun _ => modify fun ms => ms.insert key (.directory now)) ms = _
    rw [runBind_eq]
    rcases checkParent key ms with ⟨_ | _, _⟩ <;> rfl

theorem write_eq (ms : Members) (now : Instant) (key : String) (data : ByteArray)
    (mode : WriteMode) :
    write now key data mode ms = match ms.entries.get? key with
      | some m =>
        if m.isDirectory then (.error .isADirectory, ms)
        else if mode = .createNew then (.error .present, ms)
        else (.ok (), ms.set key
          ⟨.file data, { m.times with modified := now, accessed := now }⟩)
      | none => match checkParent key ms with
        | (.ok (), ms') => (.ok (), ms'.insert key (.file data now))
        | (.error e, ms') => (.error e, ms') := by
  change (match ms.entries.get? key with
    | some m =>
      if m.isDirectory then throw .isADirectory
      else if mode = .createNew then throw .present
      else modify fun ms =>
        ms.set key ⟨.file data, { m.times with modified := now, accessed := now }⟩
    | none => checkParent key >>= fun _ => modify fun ms => ms.insert key (.file data now) :
      Work Unit) ms = _
  cases ms.entries.get? key with
  | some m => cases hm : m.isDirectory <;> cases mode <;> simp [hm] <;> rfl
  | none =>
    change (checkParent key >>= fun _ => modify fun ms => ms.insert key (.file data now)) ms = _
    rw [runBind_eq]
    rcases checkParent key ms with ⟨_ | _, _⟩ <;> rfl

theorem delete_eq (ms : Members) (key : String) :
    delete key ms =
      if key = "" then (.error .root, ms)
      else match ms.entries.get? key with
        | none => (.error .missing, ms)
        | some _ =>
          if ms.order.any (startsIn key) then (.error .notEmpty, ms)
          else (.ok (), ⟨ms.order.filter (· ≠ key), ms.entries.erase key, true⟩) := by
  rw [delete]
  split
  · rfl
  · change (find key >>= _) ms = _
    rw [runBind_eq, find_eq]
    cases ms.entries.get? key with
    | none => rfl
    | some m =>
      change (if ms.order.any (startsIn key) then (throw .notEmpty : Work Unit)
        else modify fun ms => ⟨ms.order.filter (· ≠ key), ms.entries.erase key, true⟩) ms = _
      cases ms.order.any (startsIn key) <;> rfl

theorem read_eq (ms : Members) (key : String) :
    read key ms = match ms.entries.get? key with
      | none => (.error .missing, ms)
      | some ⟨.file data, _⟩ => (.ok data, ms)
      | some ⟨.directory, _⟩ => (.error .isADirectory, ms) := by
  rw [read, runBind_eq, find_eq]
  cases ms.entries.get? key with
  | none => rfl
  | some m => cases m with
    | mk content times => cases content <;> rfl

theorem list_eq (ms : Members) (key : String) :
    list key ms = match ms.entries.get? key with
      | none => (.error .missing, ms)
      | some m =>
        if m.isDirectory then (.ok (ms.order.filter fun other => beforeLastSlash other = key), ms)
        else (.error .notADirectory, ms) := by
  rw [list, runBind_eq, find_eq]
  cases ms.entries.get? key with
  | none => rfl
  | some m => cases h : m.isDirectory <;> simp [h] <;> rfl

theorem walk_eq (ms : Members) (key : String) (order : WalkOrder) :
    walk key order ms = match ms.entries.get? key with
      | none => (.error .missing, ms)
      | some _ => (.ok (drain (ms.children order) (ms.order.length + 1) [key]), ms) := by
  rw [walk, runBind_eq, find_eq]
  cases ms.entries.get? key <;> rfl

/-- Members kept in two structures, and a tree that holds the same: the order lists the texts of the
tree's keys, and under the text of each key is what the tree has there. -/
structure Shows (ms : Members) (t : Tree) : Prop where
  order : ms.order = t.order.map text
  entries : ∀ k, Canonical k → ms.entries.get? k.text = t.find? k
  keys : ∀ s, (ms.entries.get? s).isSome → ∃ k, Canonical k ∧ k.text = s

/-- A change of members that comes to the same as one of a tree. One that is refused leaves them. -/
inductive Follows (ms : Members) : Except Refusal Unit × Members → Except Refusal Tree → Prop where
  | refused (e : Refusal) : Follows ms (.error e, ms) (.error e)
  | done {ms' : Members} {t' : Tree} (h : ms'.Shows t') (hd : ms'.dirty = true) :
      Follows ms (.ok (), ms') (.ok t')

theorem shows_empty (now : Instant) : (empty now).Shows (.empty now) := by
  refine ⟨rfl, ?_, ?_⟩
  · intro k hk
    by_cases hn : k = []
    · subst hn
      rfl
    · have htext : k.text ≠ "" := fun h => hn (eq_nil_of_text hk h)
      rw [Tree.find?_empty now hn]
      exact (Table.get?_cons _ _ _ _).trans (if_neg htext)
  · intro s hs
    refine ⟨[], canonical_nil, ?_⟩
    by_cases h : s = ""
    · exact h.symm
    · rw [show (empty now).entries.get? s = none from
        (Table.get?_cons _ _ _ _).trans (if_neg h)] at hs
      cases hs

namespace Shows

/-- Another member under a key, where the orders are known to list the same. -/
theorem put (h : ms.Shows t) (hk : Canonical k) {m : Member} (ho : ms'.order = t'.order.map text)
    (hput : ms'.entries = ms.entries.put k.text m)
    (hfind : ∀ j, t'.find? j = if j = k then some m else t.find? j) : ms'.Shows t' := by
  refine ⟨ho, ?_, ?_⟩
  · intro j hj
    rw [hput, Table.get?_put, hfind, h.entries j hj]
    by_cases hjk : j = k
    · subst hjk
      rw [if_pos rfl, if_pos rfl]
    · rw [if_neg hjk, if_neg fun he => hjk (text_injective hj hk he)]
  · intro s hs
    rw [hput, Table.get?_put] at hs
    by_cases hsk : s = k.text
    · exact ⟨k, hk, hsk.symm⟩
    · rw [if_neg hsk] at hs
      exact h.keys s hs

/-- The order and the map are put to together, or neither is. -/
theorem insert (h : ms.Shows t) (hk : Canonical k) (hn : k ≠ []) (m : Member) :
    (ms.insert k.text m).Shows (t.insert k m) := by
  refine h.put hk ?_ rfl (Tree.find?_insert t hn m)
  rw [Members.insert, h.entries k hk, h.order, Tree.order_insert]
  by_cases hmem : k ∈ t.order
  · have hsome := (Tree.mem_order_iff hn).mp hmem
    rw [if_pos hmem, Option.isNone_eq_false_iff.mpr hsome, if_neg Bool.false_ne_true]
  · have hnone := Option.not_isSome_iff_eq_none.mp fun hs => hmem ((Tree.mem_order_iff hn).mpr hs)
    rw [if_neg hmem, hnone, Option.isNone_none, if_pos rfl, List.map_append]
    rfl

theorem set (h : ms.Shows t) (hk : Canonical k) (hn : k ≠ []) (hmem : k ∈ t.order) (m : Member) :
    (ms.set k.text m).Shows (t.insert k m) := by
  refine h.put hk ?_ rfl (Tree.find?_insert t hn m)
  rw [Tree.order_insert_mem hmem]
  exact h.order

theorem find (h : ms.Shows t) (hk : Canonical k) : find k.text ms = (t.find k, ms) := by
  rw [find_eq, h.entries k hk, Tree.find_eq]
  cases t.find? k <;> rfl

theorem checkParent (h : ms.Shows t) (hk : Canonical k) :
    checkParent k.text ms = (t.checkParent k, ms) := by
  rw [checkParent_eq, beforeLastSlash_text hk, h.entries _ (canonical_parent hk),
    Tree.checkParent_eq]
  cases t.find? (parent k) with
  | none => rfl
  | some p => cases hd : p.isDirectory <;> simp [hd]

theorem makeDirectory (h : ms.Shows t) (hk : Canonical k) (now : Instant) :
    ms.Follows (makeDirectory now k.text ms) (t.makeDirectory now k) := by
  rw [makeDirectory_eq, h.entries k hk, h.checkParent hk, Tree.makeDirectory_eq]
  cases hf : t.find? k with
  | some m => exact .refused _
  | none =>
    have hn : k ≠ [] := by
      rintro rfl
      cases hf
    cases t.checkParent k with
    | error e => exact .refused e
    | ok u => exact .done (h.insert hk hn _) rfl

theorem write (h : ms.Shows t) (hk : Canonical k) (now : Instant) (data : ByteArray)
    (mode : WriteMode) :
    ms.Follows (write now k.text data mode ms) (t.writeFile now k data mode) := by
  rw [write_eq, h.entries k hk, h.checkParent hk, Tree.writeFile_eq]
  cases hf : t.find? k with
  | none =>
    have hn : k ≠ [] := by
      rintro rfl
      cases hf
    cases t.checkParent k with
    | error e => exact .refused e
    | ok u => exact .done (h.insert hk hn _) rfl
  | some m =>
    obtain ⟨content, times⟩ := m
    cases content with
    | directory => exact .refused _
    | file old =>
      have hn : k ≠ [] := by
        rintro rfl
        cases hf
      have hmem : k ∈ t.order := (Tree.mem_order_iff hn).mpr (by rw [hf]; rfl)
      cases mode with
      | createNew => exact .refused _
      | replace => exact .done (h.set hk hn hmem _) rfl

/-- A test on the texts in the order, and the same test on the keys. -/
theorem filter_order (h : ms.Shows t) {p : String → Bool} {q : MemberKey → Bool}
    (hpq : ∀ j ∈ t.order, p j.text = q j) : ms.order.filter p = (t.order.filter q).map text := by
  rw [h.order, List.filter_map]
  exact congrArg (List.map text) (List.filter_congr hpq)

theorem any_startsIn (h : ms.Shows t) (hw : t.WellFormed) (hk : Canonical k) (hn : k ≠ []) :
    ms.order.any (startsIn k.text) = t.hasBeneath k := by
  rw [h.order, List.any_map, Tree.hasBeneath, Bool.eq_iff_iff, List.any_eq_true, List.any_eq_true]
  apply exists_congr
  intro j
  apply and_congr_right
  intro hj
  rw [Function.comp_apply, startsIn_text (hw.canonical j hj) hk hn]

/-- A key is taken out of the order and out of the map. -/
theorem delete (h : ms.Shows t) (hw : t.WellFormed) (hk : Canonical k) :
    ms.Follows (delete k.text ms) (t.remove k) := by
  rw [delete_eq, h.entries k hk, Tree.remove_eq]
  by_cases hn : k = []
  · subst hn
    exact .refused _
  have htext : k.text ≠ "" := fun he => hn (eq_nil_of_text hk he)
  rw [if_neg htext, if_neg hn, h.any_startsIn hw hk hn]
  cases t.find? k with
  | none => exact .refused _
  | some m =>
    cases t.hasBeneath k with
    | true => exact .refused _
    | false =>
      refine .done ⟨?_, ?_, ?_⟩ rfl
      · rw [Tree.order_erase]
        apply h.filter_order
        intro j hj
        rw [decide_eq_decide]
        exact not_congr ⟨text_injective (hw.canonical j hj) hk, congrArg text⟩
      · intro j hj
        rw [Table.get?_erase, Tree.find?_erase t hn, h.entries j hj]
        by_cases hjk : j = k
        · rw [if_pos hjk, if_pos (congrArg text hjk)]
        · rw [if_neg hjk, if_neg fun he => hjk (text_injective hj hk he)]
      · intro s hs
        rw [Table.get?_erase] at hs
        split at hs
        · cases hs
        · exact h.keys s hs

theorem setTimes (h : ms.Shows t) (hk : Canonical k) (change : TimeChange) :
    ms.Follows (setTimes k.text change ms) (t.retime k change) := by
  rw [setTimes_eq, h.entries k hk, Tree.retime_eq]
  cases hf : t.find? k with
  | none => exact .refused _
  | some m =>
    refine .done ?_ rfl
    by_cases hn : k = []
    · subst hn
      cases hf
      refine h.put hk h.order rfl fun j => ?_
      by_cases hj : j = []
      · rw [hj]
        rfl
      · rw [if_pos rfl, if_neg hj, Tree.find?_of_ne_nil _ hj, Tree.find?_of_ne_nil _ hj]
    · rw [if_neg hn]
      exact h.set hk hn ((Tree.mem_order_iff hn).mpr (by rw [hf]; rfl)) _

theorem read (h : ms.Shows t) (hk : Canonical k) : read k.text ms = (t.read k, ms) := by
  rw [read_eq, h.entries k hk, Tree.read_eq]
  cases t.find? k with
  | none => rfl
  | some m => cases m with
    | mk content times => cases content <;> rfl

/-- What the order lists in a directory. -/
theorem filter_beforeLastSlash (h : ms.Shows t) (hw : t.WellFormed) (hk : Canonical k) :
    (ms.order.filter fun s => beforeLastSlash s = k.text) = (t.below k).map text := by
  apply h.filter_order
  intro j hj
  have hc := hw.canonical j hj
  rw [beforeLastSlash_text hc, decide_eq_decide]
  exact ⟨fun he => ⟨hw.ne_nil j hj, text_injective (canonical_parent hc) hk he⟩,
    fun he => congrArg text he.2⟩

theorem list (h : ms.Shows t) (hw : t.WellFormed) (hk : Canonical k) :
    list k.text ms = ((t.list k).map (List.map text), ms) := by
  rw [list_eq, h.entries k hk, Tree.list_eq]
  cases t.find? k with
  | none => rfl
  | some m =>
    cases hd : m.isDirectory with
    | false => simp only [hd, Bool.false_eq_true, if_false]; rfl
    | true => simp only [hd, if_true, h.filter_beforeLastSlash hw hk]; rfl

end Shows

/-- The keys in a directory are those that the order lists with its text before the last slash. -/
theorem get?_foldl_addBelow (order : List String) (p : String) :
    ((order.foldl addBelow []).get? p).getD [] =
      order.filter fun key => beforeLastSlash key = p := by
  induction order using List.reverseRecOn with
  | nil => rfl
  | append_singleton order key ih =>
    rw [List.foldl_append, List.foldl_cons, List.foldl_nil, addBelow, Table.get?_put,
      List.filter_append]
    by_cases hp : p = beforeLastSlash key
    · subst hp
      rw [if_pos rfl, Option.getD_some, ih]
      simp
    · rw [if_neg hp, ih]
      simp [Ne.symm hp]

theorem get?_children (ms : Members) (order : WalkOrder) (p : String) :
    ((ms.children order).get? p).getD [] =
      order.arrange nameLe (ms.order.filter fun key => beforeLastSlash key = p) := by
  rw [children, Table.get?_map_values, ← get?_foldl_addBelow]
  cases (ms.order.foldl addBelow []).get? p with
  | none => exact (order.arrange_nil nameLe).symm
  | some below => rfl

/-- A stack that runs empty is drained in as many turns as there are keys put out. -/
theorem drain_of_drains {children : Table String (List String)} {stack out : List String}
    {turns : Nat} (h : Drains (fun key below => (children.get? key).getD [] = below) stack out)
    (hturns : out.length ≤ turns) : drain children turns stack = some out := by
  induction h generalizing turns with
  | empty => cases turns <;> rfl
  | turn hx _ ih =>
    obtain _ | turns := turns
    · cases hturns
    · rw [drain, hx, ih (Nat.le_of_succ_le_succ hturns)]
      rfl

namespace Shows

theorem children (h : ms.Shows t) (hw : t.WellFormed) (hk : Canonical k) (order : WalkOrder) :
    ((ms.children order).get? k.text).getD [] = (t.inTurn order k).map text := by
  rw [get?_children, h.filter_beforeLastSlash hw hk]
  symm
  apply order.map_arrange
  intro i hi j hj
  obtain ⟨-, hin, hip⟩ := Tree.mem_below.mp hi
  obtain ⟨-, hjn, hjp⟩ := Tree.mem_below.mp hj
  exact siblingLe_text hin hjn (hip.trans hjp.symm)

/-- The stack of texts runs empty, and puts out the texts of the keys in the tree's walk. -/
theorem walk (h : ms.Shows t) (hw : t.WellFormed) (hk : Canonical k) (order : WalkOrder) :
    walk k.text order ms = ((t.walk order k).map fun ks => some (ks.map text), ms) := by
  rw [walk_eq, h.entries k hk, Tree.walk_eq]
  cases t.find? k with
  | none => rfl
  | some m =>
    have hsteps : t.height ≤ k.length + (t.height - k.length) := by omega
    have htexts : Drains (fun key below => ((ms.children order).get? key).getD [] = below) [k.text]
        ((t.preorder order (t.height - k.length) k).map text) := by
      refine (Tree.drains_preorder order hsteps).map (f := text) fun j hj below hbelow => ?_
      have hc : Canonical j := by
        rcases (hw.mem_preorder order hsteps).mp hj with rfl | ⟨hj, -⟩
        · exact hk
        · exact hw.canonical j hj
      rw [h.children hw hc, hbelow]
    have hturns : ((t.preorder order (t.height - k.length) k).map text).length ≤
        ms.order.length + 1 := by
      rw [List.length_map, h.order, List.length_map]
      exact hw.length_preorder_le order hsteps
    change (Except.ok (drain (ms.children order) (ms.order.length + 1) [k.text]), ms) = _
    rw [drain_of_drains htexts hturns]
    rfl

end Shows

end Members

end ZipMount
