import ZipMount.Proofs.Archives.Entry
import ZipMount.Proofs.Mounting.Calls
import ZipMount.Proofs.Rose.Run
import ZipMount.Proofs.Tree.Visits

namespace ZipMount

open MemberKey

namespace Pathname

theorem go_append (cs ds es : List Component) : le.go (cs ++ ds) (cs ++ es) = le.go ds es := by
  induction cs with
  | nil => rfl
  | cons c cs ih =>
    rw [List.cons_append, List.cons_append, le.go, if_pos rfl, ih]

theorem go_names (m n : Filename) : le.go [.name m] [.name n] = decide (m ≤ n) := by
  rw [le.go]
  split
  · next h =>
    cases h
    rw [le.go, decide_eq_true (List.le_refl m)]
  · rfl

end Pathname

/-- The members of one directory are in the order of their last names, as paths too. -/
theorem Path.le_ofKey {id : MountId} {k : MemberKey} {r s : String} (hr : Canonical (k ++ [r]))
    (hs : Canonical (k ++ [s])) :
    Path.le (ofKey id (k ++ [r])) (ofKey id (k ++ [s])) = siblingLe (k ++ [r]) (k ++ [s]) := by
  change (MemberKey.pathname (k ++ [r])).le (MemberKey.pathname (k ++ [s])) = _
  have hsteps : ∀ t : String, (k ++ [t]).filenames.map Component.name =
      k.filenames.map .name ++ [.name (Text.bytes t)] := by
    intro t
    rw [filenames_append, List.map_append]
    rfl
  rw [Pathname.le, components_pathname hr, components_pathname hs, hsteps, hsteps,
    ← List.cons_append, ← List.cons_append, Pathname.go_append, Pathname.go_names, siblingLe,
    List.getLastD_concat, List.getLastD_concat, nameLe]

section

variable {attributes : Path → Except Error Attributes} {list : Path → Except Error (List Path)}
  {order : WalkOrder}

/-- What such a walk goes on to from a path. -/
def leadsTo (attributes : Path → Except Error Attributes) (list : Path → Except Error (List Path))
    (order : WalkOrder) (p : Path) : Except Error (List Path) := do
  if (← attributes p).isDirectory then pure (order.arrange Path.le (← list p)) else pure []

theorem walkBy_of_leadsTo {n : Nat} {p : Path} {ps : List Path} {below : List (List Path)}
    (hp : leadsTo attributes list order p = .ok ps)
    (hbelow : ps.mapM (walkBy attributes list order n) = .ok below) :
    walkBy attributes list order (n + 1) p = .ok (p :: below.flatten) := by
  obtain ⟨a, ha, hp⟩ := bind_eq_ok hp
  rw [walkBy, ha]
  change (if a.isDirectory = true then _ else _) = _
  split at hp
  · next hd =>
    obtain ⟨listed, hl, hp⟩ := bind_eq_ok hp
    cases hp
    rw [if_pos hd, hl]
    change ((order.arrange Path.le listed).mapM (walkBy attributes list order n) >>=
      fun below => .ok (p :: below.flatten)) = _
    rw [hbelow]
    rfl
  · next hf =>
    cases hp
    cases hbelow
    rw [if_neg hf]
    rfl

/-- The answers are those that the members of a tree have for their paths on a mount. -/
structure Tree.Answers (t : Tree) (id : MountId) (attributes : Path → Except Error Attributes)
    (list : Path → Except Error (List Path)) : Prop where
  attributes : ∀ k x, t.find? k = some x → attributes (.ofKey id k) = .ok x.attributes
  list : ∀ k x, t.find? k = some x → x.isDirectory = true →
    list (.ofKey id k) = .ok ((t.below k).map (.ofKey id))

variable {t : Tree} {id : MountId} {k : MemberKey} {x : Member}

theorem Member.isDirectory_attributes (x : Member) : x.attributes.isDirectory = x.isDirectory := by
  unfold attributes isDirectory
  cases x.content <;> rfl

theorem Tree.Tidy.below_file (ht : t.Tidy) (hx : t.find? k = some x) (hf : x.isDirectory = false) :
    t.below k = [] := by
  rw [List.eq_nil_iff_forall_not_mem]
  intro j hj
  obtain ⟨hmem, -, rfl⟩ := Tree.mem_below.mp hj
  obtain ⟨y, hy, hd⟩ := ht j hmem
  rw [hx] at hy
  cases hy
  rw [hf] at hd
  cases hd

theorem Tree.WellFormed.arrange_below (h : t.WellFormed) (order : WalkOrder) (id : MountId)
    (k : MemberKey) :
    order.arrange Path.le ((t.below k).map (.ofKey id)) = (t.inTurn order k).map (.ofKey id) := by
  symm
  apply order.map_arrange
  intro i hi j hj
  obtain ⟨hmi, hin, rfl⟩ := Tree.mem_below.mp hi
  obtain ⟨hmj, hjn, hparent⟩ := Tree.mem_below.mp hj
  have hci := h.canonical i hmi
  have hcj := h.canonical j hmj
  rw [← Tree.concat_getLastD hin] at hci ⊢
  rw [← Tree.concat_getLastD hjn, hparent] at hcj ⊢
  exact (Path.le_ofKey hci hcj).symm

/-- From the path of a member such a walk goes on to what is one step beneath it. -/
theorem Tree.Answers.leadsTo (ha : t.Answers id attributes list) (h : t.WellFormed) (ht : t.Tidy)
    (hx : t.find? k = some x) :
    leadsTo attributes list order (.ofKey id k) = .ok ((t.inTurn order k).map (.ofKey id)) := by
  unfold ZipMount.leadsTo
  rw [ha.attributes k x hx]
  change (if x.attributes.isDirectory = true then _ else _) = _
  rw [Member.isDirectory_attributes]
  cases hd : x.isDirectory with
  | true =>
    rw [if_pos rfl, ha.list k x hx hd]
    exact congrArg Except.ok (h.arrange_below order id k)
  | false =>
    rw [if_neg Bool.false_ne_true, Tree.inTurn, ht.below_file hx hd, WalkOrder.arrange_nil]
    rfl

theorem Tree.Answers.walkBy (ha : t.Answers id attributes list) (h : t.WellFormed) (ht : t.Tidy)
    (n : Nat) (hx : t.find? k = some x) :
    walkBy attributes list order n (.ofKey id k) =
      .ok ((t.preorder order n k).map (.ofKey id)) := by
  induction n generalizing k x with
  | zero => rfl
  | succ n ih =>
    have hbelow : ((t.inTurn order k).map (Path.ofKey id)).mapM
        (ZipMount.walkBy attributes list order n) =
          .ok ((t.inTurn order k).map fun c => (t.preorder order n c).map (Path.ofKey id)) := by
      rw [List.mapM_map]
      apply mapM_of_ok
      intro c hc
      obtain ⟨hmem, hn, -⟩ := Tree.mem_inTurn.mp hc
      obtain ⟨y, hy⟩ := Tree.exists_find_of_mem hn hmem
      exact ih hy
    rw [walkBy_of_leadsTo (ha.leadsTo h ht hx) hbelow, Tree.preorder_succ, List.map_cons,
      List.map_flatMap, List.flatMap_def]

/-- Such a walk keeps paths on a stack just as the other keeps keys. -/
theorem Tree.Answers.drains (ha : t.Answers id attributes list) (h : t.WellFormed) (ht : t.Tidy)
    {n : Nat} (hn : t.height ≤ k.length + n) (hx : t.find? k = some x) :
    Drains (fun p ps => ZipMount.leadsTo attributes list order p = .ok ps) [.ofKey id k]
      ((t.preorder order n k).map (.ofKey id)) := by
  have hkeys := Tree.drains_preorder order hn
  apply hkeys.map (f := Path.ofKey id)
  rintro j hj _ rfl
  have hthere : ∃ y, t.find? j = some y := by
    rcases (h.mem_preorder order hn).mp hj with rfl | ⟨hmem, -⟩
    · exact ⟨x, hx⟩
    · exact Tree.exists_find_of_mem (h.ne_nil j hmem) hmem
  obtain ⟨y, hy⟩ := hthere
  exact ha.leadsTo h ht hy

end

/-- No operation puts a member into a file. -/
theorem Tree.Tidy.step {t t' : Tree} (ht : t.Tidy) (h : t.WellFormed) (hs : t.Step t') :
    t'.Tidy := by
  rw [(h.step hs).tidy_iff]
  intro k hk
  exact h.tidy_iff.mp ht k (hk.of_step h hs)

theorem Tree.WellFormed.canonical_of_find {t : Tree} (h : t.WellFormed) {k : MemberKey} {x : Member}
    (hx : t.find? k = some x) : Canonical k := by
  by_cases hn : k = []
  · subst hn
    exact canonical_nil
  · exact h.canonical k (mem_order_of_find hn hx)

theorem Tree.tidy_empty (now : Instant) : (empty now).Tidy := by
  intro k hk
  cases hk

namespace World

variable {w : World} {id : MountId} {m : Mount}

/-- The archive's provider answers so for a mount that is open. -/
theorem answers_archive (hm : w.openMount id = .ok m) (hw : m.tree.WellFormed) :
    m.tree.Answers id ((Provider.archive id.registry).attributes w)
      ((Provider.archive id.registry).list w) := by
  constructor
  · intro k x hx
    have hkey := ofPathname_pathname (hw.canonical_of_find hx)
    change (w.openMount id >>= fun m =>
      Mount.answer k.pathname (m.tree.find (ofPathname k.pathname)) >>= fun x =>
        .ok x.attributes) = _
    rw [hm, hkey]
    change (Mount.answer k.pathname (m.tree.find k) >>= fun x => .ok x.attributes) = _
    rw [Tree.find_eq, hx]
    rfl
  · intro k x hx hd
    obtain ⟨hmount, hopen⟩ := openMount_ok.mp hm
    have hkey := ofPathname_pathname (hw.canonical_of_find hx)
    have hlist := Tree.list_directory (q := k.pathname) hmount hopen (hkey.symm ▸ hx) hd
    rw [hkey] at hlist
    exact hlist

/-- What heights add up to is no less than each of them. -/
theorem height_le_foldl (ms : List Mount) (n : Nat) :
    n ≤ ms.foldl (fun n m => n + m.tree.height + 1) n ∧
      ∀ m ∈ ms, m.tree.height ≤ ms.foldl (fun n m => n + m.tree.height + 1) n := by
  induction ms generalizing n with
  | nil => exact ⟨Nat.le_refl n, fun m hm => absurd hm List.not_mem_nil⟩
  | cons x ms ih =>
    obtain ⟨hle, hall⟩ := ih (n + x.tree.height + 1)
    rw [List.foldl_cons]
    refine ⟨by omega, fun m hm => ?_⟩
    rcases List.mem_cons.mp hm with rfl | hm
    · omega
    · exact hall m hm

theorem height_le_depth (hm : w.mount? id = some m) : m.tree.height ≤ w.depth :=
  (height_le_foldl w.mounts Host.pathLimit).2 m (List.mem_of_getElem? hm)

/-- A provider's own walk comes to some paths, and so does one that asks of each path what it is and
what is in it: its stack runs empty, and what bounds its depth does not cut it short. Filters that
refuse modes walk in this way. -/
structure WalksAlike (w : World) (prov : Provider) (order : WalkOrder) (p : Path) (ps : List Path) :
    Prop where
  own : prov.walk w order p = .ok ps
  drains : Drains (fun p below => leadsTo (prov.attributes w) (prov.list w) order p = .ok below)
    [p] ps
  asking : walkBy (prov.attributes w) (prov.list w) order w.depth p = .ok ps
  filtered : ∀ denied, (Provider.denying denied prov).walk w order p = .ok ps

/-- A mount that was created empty, whatever it is asked to do then, is walked alike from every
member in both ways. -/
theorem Fresh.walks_alike (h : w.Fresh id) (cs : List Call) :
    ∃ m, (w.after cs).openMount id = .ok m ∧ ∀ k, (m.tree.find? k).isSome → ∀ order,
      ∃ ps, (w.after cs).WalksAlike (.archive id.registry) order (.ofKey id k) ps := by
  obtain ⟨m₀, now, hm₀, hempty⟩ := h
  obtain ⟨hmount₀, hopen₀, -⟩ := writableMount_ok.mp hm₀
  -- along the calls the tree keeps its shape, and nothing gets into a file
  have hstep : ∀ t t' : Tree, t.WellFormed ∧ t.Tidy → t.Step t' → t'.WellFormed ∧ t'.Tidy :=
    fun t t' ht hs => ⟨ht.1.step hs, ht.2.step ht.1 hs⟩
  have hstart : m₀.tree.WellFormed ∧ m₀.tree.Tidy := by
    rw [hempty]
    exact ⟨Tree.wellFormed_empty now, Tree.tidy_empty now⟩
  obtain ⟨m, hmount, hw, ht⟩ := mount?_after hstep hmount₀ hstart cs
  have hopen : m.isOpen = true := by
    obtain ⟨t, dirty, hafter, -⟩ := mount?_after_calls hmount₀ cs
    rw [hmount] at hafter
    cases hafter
    exact hopen₀
  have hm := openMount_ok.mpr ⟨hmount, hopen⟩
  refine ⟨m, hm, fun k hk order => ?_⟩
  obtain ⟨x, hx⟩ := Option.isSome_iff_exists.mp hk
  have hc := hw.canonical_of_find hx
  have ha := answers_archive hm hw
  have hheight : m.tree.height ≤ k.length + (m.tree.height - k.length) := by omega
  have hdepth : m.tree.height ≤ k.length + (w.after cs).depth :=
    Nat.le_add_left_of_le (height_le_depth hmount)
  have hsteps := Tree.preorder_eq order hdepth hheight
  refine ⟨_, Path.walk_ofKey hm hc hx order, ha.drains hw ht hheight hx, ?_, fun denied => ?_⟩
  · rw [ha.walkBy hw ht _ hx, hsteps]
  · -- a filter takes nothing off the path of a member
    have hfilter : m.tree.Answers id
        ((Provider.denying denied (.archive id.registry)).attributes (w.after cs))
        ((Provider.denying denied (.archive id.registry)).list (w.after cs)) :=
      ⟨ha.attributes, ha.list⟩
    change walkBy _ _ order (w.after cs).depth (.ofKey id k) = _
    rw [hfilter.walkBy hw ht _ hx, hsteps]

/-- Calls that put members in an order that is not that of their names, and one that is refused. -/
def scatteringCalls : List Call :=
  let path := fun text => (FileSystem.archive ⟨0, 0⟩).path text
  [⟨.archive 0, path "b", .makeDirectory⟩, ⟨.archive 0, path "a-b", .makeDirectory⟩,
    ⟨.archive 0, path "a", .makeDirectory⟩,
    ⟨.archive 0, path "b/f", .write (contents [1]) .createNew⟩,
    ⟨.archive 0, path "b/f/g", .write (contents [2]) .createNew⟩,
    ⟨.archive 0, path "a/d", .makeDirectory⟩]

theorem walks_alike_created :
    created.Fresh ⟨0, 0⟩ ∧ ∃ m, (created.after scatteringCalls).openMount ⟨0, 0⟩ = .ok m ∧
      (m.tree.find? ["a", "d"]).isSome ∧ ∀ k, (m.tree.find? k).isSome → ∀ order,
        ∃ ps, (created.after scatteringCalls).WalksAlike (.archive 0) order
          (.ofKey ⟨0, 0⟩ k) ps := by
  let file : Path := .host (.ofString "/a.zip")
  have hnone : file.provider.check bare file [] = .error (.notFound "/a.zip") := rfl
  have hmount : bare.mount 0 file (Options.createEnv "") none = .ok (⟨0, 0⟩, created) := rfl
  have hfresh := fresh_mount hnone hmount
  obtain ⟨m, hm, hwalks⟩ := hfresh.walks_alike scatteringCalls
  have hthere : (m.tree.find? ["a", "d"]).isSome := by
    cases hm
    rfl
  exact ⟨hfresh, m, hm, hthere, hwalks⟩

end World

end ZipMount
