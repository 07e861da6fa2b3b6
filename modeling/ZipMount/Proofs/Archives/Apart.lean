import ZipMount.Mounting.Drop
import ZipMount.Proofs.Archives.Source

namespace ZipMount

/-- The same files on the host and the same mounts of some numbers. -/
structure World.AgreesOn (ids : List MountId) (w v : World) : Prop where
  host : v.host = w.host
  mounts : ∀ id ∈ ids, v.mount? id = w.mount? id

theorem Path.mounts_unwrapped_subset (p : Path) : p.unwrapped.mounts ⊆ p.mounts := by
  cases p with
  | host q => exact fun _ h => h
  | member id q => exact fun _ h => h
  | proxy d fs => exact fun _ h => List.mem_append_left _ h

namespace Provider

variable {prov : Provider} {p q : Path} {id : MountId} {w v : World}

/-- Who serves a path finds it on a mount that it is on. -/
theorem mem_mounts_of_target {r : Pathname} (h : prov.target p = .ok (.member id r)) :
    id ∈ p.mounts := by
  induction prov generalizing p with
  | host => cases p <;> cases h
  | archive registry =>
    cases p with
    | host q => cases h
    | proxy d fs => cases h
    | member id' q =>
      cases h
      exact List.mem_singleton_self id
  | granting allowed d ih => exact p.mounts_unwrapped_subset (ih h)
  | denying denied d ih => exact p.mounts_unwrapped_subset (ih h)

theorem openMount_congr (h : w.AgreesOn p.mounts v) {r : Pathname}
    (ht : prov.target p = .ok (.member id r)) : v.openMount id = w.openMount id := by
  unfold World.openMount
  rw [h.mounts id (mem_mounts_of_target ht)]

theorem attributes_congr (h : w.AgreesOn p.mounts v) :
    prov.attributes v p = prov.attributes w p := by
  unfold attributes
  cases ht : prov.target p with
  | error e => rfl
  | ok target =>
    cases target with
    | host q =>
      change Host.answer q (v.host.stat q) = Host.answer q (w.host.stat q)
      rw [h.host]
    | member id q =>
      change (v.openMount id >>= _) = (w.openMount id >>= _)
      rw [openMount_congr h ht]

theorem read_congr (h : w.AgreesOn p.mounts v) : prov.read v p = prov.read w p := by
  unfold read
  cases ht : prov.target p with
  | error e => rfl
  | ok target =>
    cases target with
    | host q =>
      change Host.answer q (v.host.read q) = Host.answer q (w.host.read q)
      rw [h.host]
    | member id q =>
      change (v.openMount id >>= _) = (w.openMount id >>= _)
      rw [openMount_congr h ht]

theorem mounts_of_list {found : List Path} (h : prov.list w p = .ok found) (hq : q ∈ found) :
    q.mounts ⊆ p.mounts := by
  unfold list at h
  obtain ⟨target, ht, h⟩ := bind_eq_ok h
  cases target with
  | host r =>
    obtain ⟨names, -, h⟩ := bind_eq_ok h
    cases h
    obtain ⟨n, -, rfl⟩ := List.mem_map.mp hq
    exact List.nil_subset _
  | member id r =>
    obtain ⟨m, -, h⟩ := bind_eq_ok h
    obtain ⟨ks, -, h⟩ := bind_eq_ok h
    cases h
    obtain ⟨k, -, rfl⟩ := List.mem_map.mp hq
    exact List.cons_subset.mpr ⟨mem_mounts_of_target ht, List.nil_subset _⟩

end Provider

/-- What is listed beneath what is there at the start is all that a walk comes to. -/
theorem mem_of_walkBy {P : Path → Prop} {attributes : Path → Except Error Attributes}
    {list : Path → Except Error (List Path)} {order : WalkOrder}
    (hlist : ∀ p found, P p → list p = .ok found → ∀ q ∈ found, P q) {depth : Nat} {p : Path}
    (hp : P p) {found : List Path} (h : walkBy attributes list order depth p = .ok found) :
    ∀ q ∈ found, P q := by
  induction depth generalizing p found with
  | zero =>
    cases h
    intro q hq
    rw [List.mem_singleton.mp hq]
    exact hp
  | succ depth ih =>
    unfold walkBy at h
    obtain ⟨a, -, h⟩ := bind_eq_ok h
    split at h
    · obtain ⟨listed, hlisted, h⟩ := bind_eq_ok h
      obtain ⟨below, hbelow, h⟩ := bind_eq_ok h
      cases h
      intro q hq
      rcases List.mem_cons.mp hq with rfl | hq
      · exact hp
      · obtain ⟨part, hpart, hq⟩ := List.mem_flatten.mp hq
        obtain ⟨c, hc, hwalk⟩ := exists_of_mem_mapM hbelow hpart
        exact ih (hlist p listed hp hlisted c (WalkOrder.mem_arrange.mp hc)) hwalk q hq
    · cases h
      intro q hq
      rw [List.mem_singleton.mp hq]
      exact hp

namespace Provider

variable {prov : Provider} {p q : Path} {w : World}

theorem mounts_of_walk {order : WalkOrder} {found : List Path}
    (h : prov.walk w order p = .ok found) (hq : q ∈ found) : q.mounts ⊆ p.mounts := by
  induction prov generalizing p with
  | granting allowed d ih =>
    exact List.Subset.trans (ih h) p.mounts_unwrapped_subset
  | denying denied d ih =>
    refine mem_of_walkBy (P := fun q => q.mounts ⊆ p.mounts) ?_ (List.Subset.refl _) h q hq
    intro p' listed hp' hlisted q' hq'
    exact List.Subset.trans (mounts_of_list hlisted hq') hp'
  | host =>
    cases p with
    | member id r => cases h
    | proxy d fs => cases h
    | host r =>
      obtain ⟨target, ht, h⟩ := bind_eq_ok h
      cases ht
      obtain ⟨ps, -, h⟩ := bind_eq_ok h
      cases h
      obtain ⟨r', -, rfl⟩ := List.mem_map.mp hq
      exact List.nil_subset _
  | archive registry =>
    cases p with
    | host r => cases h
    | proxy d fs => cases h
    | member id r =>
      obtain ⟨target, ht, h⟩ := bind_eq_ok h
      cases ht
      obtain ⟨m, -, h⟩ := bind_eq_ok h
      obtain ⟨ks, -, h⟩ := bind_eq_ok h
      cases h
      obtain ⟨k, -, rfl⟩ := List.mem_map.mp hq
      exact List.Subset.refl _

end Provider

namespace Path

variable {p q : Path} {w v : World}

theorem content?_congr (h : w.AgreesOn p.mounts v) : p.content? v = p.content? w := by
  unfold content? attributes read
  rw [Provider.attributes_congr h, Provider.read_congr h]

theorem mounts_of_walk {order : WalkOrder} {found : List Path} (h : p.walk order w = .ok found)
    (hq : q ∈ found) : q.mounts ⊆ p.mounts := Provider.mounts_of_walk h hq

end Path

end ZipMount
