import ZipMount.Mounting.Open
import ZipMount.Proofs.Except

namespace ZipMount.World

variable {w v : World} {id : MountId} {backing : Path}

theorem load_ok {options : Options} {loaded : Loaded} (h : w.load backing options = .ok loaded) :
    (backing.provider.check w backing [] = .ok () ∧
      ∃ data, backing.provider.read w backing = .ok data ∧
        Tree.decode w.now data = .ok loaded.tree ∧ loaded.isNew = false) ∨
    (options.creates = true ∧ loaded = ⟨.empty w.now, false, true⟩ ∧
      ∃ e, backing.provider.check w backing [] = .error e ∧ e.isNotFound = true) := by
  unfold load at h
  cases hcheck : backing.provider.check w backing [] with
  | ok u =>
    simp only [hcheck] at h
    unfold loadFile at h
    obtain ⟨_, -, h⟩ := bind_eq_ok h
    obtain ⟨readOnly, -, h⟩ := bind_eq_ok h
    obtain ⟨data, hdata, h⟩ := bind_eq_ok h
    obtain ⟨tree, htree, h⟩ := bind_eq_ok h
    cases h
    exact Or.inl ⟨rfl, data, hdata, mapError_eq_ok htree, rfl⟩
  | error e =>
    simp only [hcheck] at h
    split at h
    · next hmay =>
      cases h
      rw [Bool.and_eq_true] at hmay
      exact Or.inr ⟨hmay.2, rfl, e, rfl, hmay.1⟩
    · cases h

theorem mount_ok {registry : Nat} {env : Env} {registered : Option (Nat × Pathname)}
    (h : w.mount registry backing env registered = .ok (id, v)) :
    ∃ options loaded m, Options.ofEnv env = .ok options ∧ w.load backing options = .ok loaded ∧
      m = ⟨backing, registered, loaded.readOnly, options, true, loaded.tree, loaded.isNew⟩ ∧
      id.number = w.mounts.length ∧ v = { w.tick with mounts := w.mounts ++ [m] } := by
  unfold mount at h
  obtain ⟨options, hoptions, h⟩ := bind_eq_ok h
  obtain ⟨loaded, hload, h⟩ := bind_eq_ok h
  cases h
  exact ⟨options, loaded, _, hoptions, hload, rfl, rfl, rfl⟩

end ZipMount.World
