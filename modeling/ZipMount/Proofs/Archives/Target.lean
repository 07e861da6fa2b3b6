import ZipMount.Proofs.Archives.Entry
import ZipMount.Proofs.Host.Reach

namespace ZipMount

namespace Path

variable {w : World} {p q : Pathname} {l dir : Location} {n : Filename}

theorem ensureDirectory_of_free (hf : w.host.Free p dir n) :
    (host p).ensureDirectory w = (.ok (), { w.tick with
      host := w.host.add w.now (dir ++ [n]) (.directory w.now) }) := by
  rw [ensureDirectory_host, Host.makeDirectory_of_free hf]

/-- A path to a place where nothing is leads to no directory, and to nothing at all. -/
theorem isDirectory_of_reaches (hr : w.host.Reaches p l) (hfree : w.host.kind? l = none) :
    (host p).isDirectory w = false := by
  rw [← Bool.not_eq_true, isDirectory_host]
  rintro ⟨-, l', hat⟩
  exact hr.not_at hfree hat

theorem exists?_of_reaches (hr : w.host.Reaches p l) (hfree : w.host.kind? l = none) :
    (host p).exists? w = false := by
  have hcheck : (host p).exists? w = (w.host.check p []).isOk := rfl
  rw [hcheck]
  cases hc : w.host.check p [] with
  | error e => rfl
  | ok u =>
    exfalso
    have haccess : w.host.access p [] = .ok () := mapError_eq_ok hc
    unfold Host.access at haccess
    split at haccess
    · cases haccess
    · obtain ⟨⟨l', node⟩, hfind, -⟩ := bind_eq_ok haccess
      exact hr.not_at hfree (Host.at_of_find hfind)

/-- Only the host's files and the clock have a part in it. -/
theorem makeDirectoriesUpTo_of_reaches (hw : w.host.WellFormed) (hr : w.host.Reaches p l)
    (hne : p.bytes ≠ []) (hz : p.hasZero = false) {fuel : Nat} (hfuel : p.bytes.length < fuel) :
    ∃ h t, (host p).makeDirectoriesUpTo fuel w = (.ok (), { w with host := h, ticks := t }) ∧
      w.host.Made l h ∧ h.At p l .directory := by
  induction hr generalizing fuel with
  | working hp => exact absurd hp hne
  | @there p l hat =>
    obtain ⟨fuel, rfl⟩ : ∃ n, fuel = n + 1 := ⟨fuel - 1, by omega⟩
    refine ⟨w.host, w.ticks, ?_, .refl hw l, hat⟩
    rw [makeDirectoriesUpTo_succ, if_pos (isDirectory_host.mpr ⟨hz, l, hat⟩)]
  | @new p q dir n hq hreaches hends hshort hzero hname hfree ih =>
    obtain ⟨fuel, rfl⟩ : ∃ n, fuel = n + 1 := ⟨fuel - 1, by omega⟩
    have hshorter : q.bytes.length < fuel := by
      have hlength := Pathname.length_parent hq
      omega
    have hnot : ¬ (host p).isDirectory w = true := by
      rw [isDirectory_of_reaches (.new hq hreaches hends hshort hzero hname hfree) hfree]
      exact Bool.false_ne_true
    have hparent : (host p).parent? = some (host q) := by
      rw [parent?, hq]
      rfl
    have hlast : ∀ {h t}, w.host.Made dir h →
        ((q.bytes = [] ∧ dir = h.workingDirectory) ∨ h.At q dir .directory) →
        ∃ h' t', (host p).ensureDirectory { w with host := h, ticks := t } =
            (.ok (), { w with host := h', ticks := t' }) ∧
          w.host.Made (dir ++ [n]) h' ∧ h'.At p (dir ++ [n]) .directory := by
      intro h t hm hthere
      have hf : h.Free p dir n := hm.free hq hthere hends hshort hzero hname hfree
      exact ⟨_, t + 1, ensureDirectory_of_free hf, hm.add hf _,
        hf.at_add _ (fun _ => HostKind.noConfusion) (Or.inl rfl)⟩
    rw [makeDirectoriesUpTo_succ, if_neg hnot, hparent]
    by_cases hqn : q.bytes = []
    · have hskip : ¬ (host q).pathname.bytes ≠ [] := not_not.mpr hqn
      simp only [if_neg hskip]
      exact hlast (.refl hw dir) (Or.inl ⟨hqn, hreaches.eq_working hqn⟩)
    · have hgo : (host q).pathname.bytes ≠ [] := hqn
      obtain ⟨h, t, hmade, hm, hat⟩ := ih hqn (Pathname.hasZero_parent hq hzero) hshorter
      simp only [if_pos hgo]
      rw [Action.bind_of_ok hmade]
      exact hlast hm (Or.inr hat)

/-- Making the directories on the way to a place, and the one there, succeeds. -/
theorem makeDirectories_of_reaches (hw : w.host.WellFormed) (hr : w.host.Reaches p l)
    (hne : p.bytes ≠ []) (hz : p.hasZero = false) :
    ∃ h t, (host p).makeDirectories w = (.ok (), { w with host := h, ticks := t }) ∧
      w.host.Made l h ∧ h.At p l .directory :=
  makeDirectoriesUpTo_of_reaches hw hr hne hz (Nat.lt_succ_self _)

end Path

namespace Archives

variable {w : World} {p : Pathname} {l dir : Location} {n : Filename}

/-- A target that is missing is made. -/
theorem ensureTarget_of_reaches (hw : w.host.WellFormed) (hr : w.host.Reaches p l)
    (hne : p.bytes ≠ []) (hz : p.hasZero = false)
    (hfree : w.host.kind? l = none) :
    ∃ h t, ensureTarget (.host p) w = (.ok (), { w with host := h, ticks := t }) ∧
      w.host.Made l h ∧ h.At p l .directory := by
  unfold ensureTarget
  rw [Action.get_bind, Path.exists?_of_reaches hr hfree]
  exact Path.makeDirectories_of_reaches hw hr hne hz

end Archives

end ZipMount
