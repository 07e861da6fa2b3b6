import ZipMount.Proofs.Host.Lookup

namespace ZipMount

theorem Step.isSegment_of_ofSegment? {s n : Filename} (hs : 47 ∉ s)
    (h : Step.ofSegment? s = some (.name n)) : IsSegment n := by
  unfold Step.ofSegment? at h
  split at h
  · cases h
  · next hempty =>
    split at h
    · cases h
    · next hdot =>
      split at h
      · cases h
      · next hdots =>
        cases h
        exact ⟨hempty, hdot, hdots, hs⟩

theorem Pathname.isSegment_of_mem_plainSteps {p : Pathname} {n : Filename}
    (h : .name n ∈ p.plainSteps) : IsSegment n := by
  obtain ⟨s, hs, hn⟩ := List.mem_filterMap.mp h
  exact Step.isSegment_of_ofSegment? (Text.not_mem_pieces hs) hn

theorem Pathname.isSegment_of_mem_steps {p : Pathname} {n : Filename} (h : .name n ∈ p.steps) :
    IsSegment n := by
  apply isSegment_of_mem_plainSteps (p := p)
  rcases p.steps_eq with hs | hs
  · rw [← hs]
    exact h
  · rw [hs, List.mem_append, List.mem_singleton] at h
    rcases h with h | h
    · exact h
    · cases h

namespace Host

variable {h h' : Host} {m : Manner} {k : Nat} {loc dir : Location} {n : Filename}
  {steps : List Step} {p : Pathname}

/-- A name that is found free is a proper one, in a directory where nothing has it. -/
theorem vacant_of_advances (ha : h.Advances m k loc steps (.vacant dir n))
    (hsteps : ∀ s, .name s ∈ steps → IsSegment s) :
    h.kind? dir = some .directory ∧ h.kind? (dir ++ [n]) = none ∧ IsSegment n := by
  generalize hspot : Spot.vacant dir n = spot at ha
  induction ha with
  | done => cases hspot
  | stay _ _ _ ih => exact ih (fun s hs => hsteps s (List.mem_cons_of_mem _ hs)) hspot
  | up _ _ ih => exact ih (fun s hs => hsteps s (List.mem_cons_of_mem _ hs)) hspot
  | name _ _ _ _ _ ih => exact ih (fun s hs => hsteps s (List.mem_cons_of_mem _ hs)) hspot
  | link _ _ _ _ _ ih =>
    refine ih ?_ hspot
    intro s hs
    rcases List.mem_append.mp hs with hs | hs
    · exact Pathname.isSegment_of_mem_steps hs
    · exact hsteps s (List.mem_cons_of_mem _ hs)
  | last => cases hspot
  | vacant hd _ hk =>
    cases hspot
    exact ⟨hd, hk, hsteps n List.mem_cons_self⟩

/-- Steps to a free name lead there once the name is taken by something that is no link, all else
being as it was. -/
theorem leads_of_vacant (ha : h.Advances m k loc steps (.vacant dir n))
    (hsame : ∀ l kind, h.kind? l = some kind → h'.kind? l = some kind) {kind : HostKind}
    (hnew : h'.kind? (dir ++ [n]) = some kind) (hkind : ∀ target, kind ≠ .link target) :
    ∃ j ≤ k, h'.Leads j loc steps (dir ++ [n]) := by
  generalize hspot : Spot.vacant dir n = spot at ha
  induction ha with
  | done => cases hspot
  | stay hs hd _ ih =>
    obtain ⟨j, hj, hr⟩ := ih hspot
    exact ⟨j, hj, .stay hs (hsame _ _ hd) hr⟩
  | up hd _ ih =>
    obtain ⟨j, hj, hr⟩ := ih hspot
    exact ⟨j, hj, .up (hsame _ _ hd) hr⟩
  | name hd hn hk hl _ ih =>
    obtain ⟨j, hj, hr⟩ := ih hspot
    exact ⟨j, hj, .name (hsame _ _ hd) hn (hsame _ _ hk) hl hr⟩
  | link hd hn hk _ _ ih =>
    obtain ⟨j, hj, hr⟩ := ih hspot
    exact ⟨j + 1, Nat.succ_le_succ hj, .link (hsame _ _ hd) hn (hsame _ _ hk) hr⟩
  | last => cases hspot
  | @vacant k loc n hd hn _ =>
    cases hspot
    exact ⟨0, Nat.zero_le k, .name (hsame _ _ hd) hn hnew hkind (.done _)⟩

theorem kind?_add_of_some {now : Instant} {node : HostNode} (hfree : h.kind? (dir ++ [n]) = none)
    {l : Location} {kind : HostKind} (hl : h.kind? l = some kind) :
    (h.add now (dir ++ [n]) node).kind? l = some kind := by
  have hne : l ≠ dir ++ [n] := by
    rintro rfl
    rw [hfree] at hl
    cases hl
  rw [kind?_add h now (by simp), if_neg hne, hl]

theorem makeDirectory_wellFormed (hw : h.WellFormed) {now : Instant}
    (hm : h.makeDirectory now p = .ok h') : h'.WellFormed := by
  obtain ⟨-, hr⟩ := onPath_ok hm
  obtain ⟨spot, hl, hr⟩ := bind_eq_ok hr
  cases spot with
  | entry l => cases hr
  | vacant dir n =>
    cases hr
    obtain ⟨-, -, ha⟩ := lookup_ok.mp hl
    obtain ⟨hd, hfree, hn⟩ := vacant_of_advances (advances_of_advance ha)
      fun s hs => Pathname.isSegment_of_mem_plainSteps hs
    exact hw.add now hd hn hfree _

/-- A file written where nothing is can be looked up there. -/
theorem at_of_write (hw : h.WellFormed) {now : Instant} {data : ByteArray}
    (hwrite : h.write now p data .replace = .ok h') (hnone : ∀ l kind, ¬ h.At p l kind) :
    p.hasZero = false ∧ h'.WellFormed ∧ h'.workingDirectory = h.workingDirectory ∧
      ∃ l, h'.At p l (.file data) := by
  obtain ⟨hz, hr⟩ := onPath_ok hwrite
  change h.replace now p data = .ok h' at hr
  refine ⟨hz, ?_⟩
  unfold replace at hr
  obtain ⟨spot, hl, hr⟩ := bind_eq_ok hr
  obtain ⟨hne, hlt, ha⟩ := lookup_ok.mp hl
  have hadvances := advances_of_advance ha
  cases spot with
  | entry l =>
    have hleads := leads_of_advances (Or.inl rfl) hadvances
    cases hn : h.node? l with
    | none =>
      simp only [hn] at hr
      cases hr
    | some node =>
      have hk : h.kind? l = some node.kind := by
        rw [kind?, hn]
        rfl
      exact absurd ⟨hne, hlt, hleads, hk⟩ (hnone l node.kind)
  | vacant dir n =>
    cases hr
    obtain ⟨hd, hfree, hn⟩ := vacant_of_advances hadvances
      fun s hs => Pathname.isSegment_of_mem_steps hs
    have hnew : (h.add now (dir ++ [n]) (.file data now)).kind? (dir ++ [n]) =
        some (.file data) := by
      rw [kind?_add h now (by simp), if_pos rfl]
      rfl
    have hleads := leads_of_vacant hadvances (fun l kind => kind?_add_of_some hfree) hnew
      fun _ => HostKind.noConfusion
    have hcwd : (h.add now (dir ++ [n]) (.file data now)).workingDirectory = h.workingDirectory :=
      workingDirectory_touch _ _ _
    have hstart : (h.add now (dir ++ [n]) (.file data now)).startOf p = h.startOf p := by
      rw [startOf, startOf, hcwd]
    refine ⟨hw.add now hd hn hfree _, hcwd, dir ++ [n], hne, hlt, ?_, hnew⟩
    rw [hstart]
    exact hleads

theorem read_of_at (hz : p.hasZero = false) {data : ByteArray} (hat : h.At p loc (.file data)) :
    h.read p = .ok data := by
  obtain ⟨node, hf, hk⟩ := find_target_iff.mpr hat
  cases node with
  | directory modified => cases hk
  | link target => cases hk
  | file data' modified =>
    cases hk
    unfold read onPath
    rw [hz, hf]
    rfl

theorem at_of_read {data : ByteArray} (hr : h.read p = .ok data) :
    p.hasZero = false ∧ ∃ l, h.At p l (.file data) := by
  obtain ⟨hz, hr⟩ := onPath_ok hr
  refine ⟨hz, ?_⟩
  obtain ⟨⟨l, node⟩, hf, hr⟩ := bind_eq_ok hr
  cases node with
  | directory modified => cases hr
  | link target => cases hr
  | file data' modified =>
    cases hr
    exact ⟨l, at_of_find hf⟩

end Host

end ZipMount
