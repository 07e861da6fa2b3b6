import ZipMount.Proofs.Host.Reach

namespace ZipMount

/-- Steps that end in a name with a slash after it, which asks for a directory of that name. -/
def AsksDirectory (ss : List Step) : Prop := ∃ n, [.name n, .slash] <:+ ss

theorem asksDirectory_cons_of_ne_name {s : Step} {ss : List Step} (hs : ∀ n, s ≠ .name n) :
    AsksDirectory (s :: ss) ↔ AsksDirectory ss := by
  refine exists_congr fun n => ?_
  rw [List.suffix_cons_iff]
  refine or_iff_right ?_
  rintro ⟨⟩
  exact hs n rfl

/-- Where something other than a slash comes after the first name, the rest decides. -/
theorem asksDirectory_cons {s : Step} {ss : List Step} (hss : ss ≠ [.slash]) :
    AsksDirectory (s :: ss) ↔ AsksDirectory ss := by
  refine exists_congr fun n => ?_
  rw [List.suffix_cons_iff]
  refine or_iff_right ?_
  rintro ⟨⟩
  exact hss rfl

theorem asksDirectory_append (before : List Step) {ss : List Step} (hne : ss ≠ [])
    (hss : ss ≠ [.slash]) : AsksDirectory (before ++ ss) ↔ AsksDirectory ss := by
  induction before with
  | nil => rfl
  | cons s before ih =>
    rw [List.cons_append, asksDirectory_cons, ih]
    intro heq
    obtain ⟨-, rfl⟩ | ⟨-, rfl⟩ := List.append_eq_singleton_iff.mp heq
    · exact hss rfl
    · exact hne rfl

namespace Host

variable {h h' : Host} {p : Pathname} {l dir : Location} {n : Filename} {k : HostKind}

/-- A path that leads somewhere is in the way of a new file; one that asks for a directory is refused
for that. -/
theorem advance_creating {i j : Nat} {a b : Location} {ss : List Step} (hl : h.Leads j a ss b)
    (hji : j ≤ i) :
    (AsksDirectory ss → h.advance .creating i a ss = .error .isDirectory) ∧
      (¬ AsksDirectory ss → ∃ l, h.advance .creating i a ss = .ok (.entry l)) := by
  induction hl generalizing i with
  | done loc =>
    refine ⟨?_, fun _ => ⟨loc, advance_nil h _ i loc⟩⟩
    rintro ⟨n, hn⟩
    cases List.suffix_nil.mp hn
  | @stay _ loc _ step rest hs hd _ ih =>
    have hstep : ∀ n, step ≠ .name n := by
      rintro n rfl
      rcases hs with hs | hs
      · cases hs
      · cases hs
    rw [asksDirectory_cons_of_ne_name hstep, advance_cons, hd]
    rcases hs with rfl | rfl
    · exact ih hji
    · exact ih hji
  | up hd _ ih =>
    rw [asksDirectory_cons_of_ne_name fun _ => Step.noConfusion, advance_cons, hd]
    exact ih hji
  | @name _ loc _ n rest kind hd hn hk hkind _ ih =>
    have hshort : ¬ longestName < n.length := Nat.not_lt.mpr hn
    rw [advance_cons, hd]
    by_cases hslash : rest = [.slash]
    · subst hslash
      exact ⟨fun _ => rfl, fun hnot => absurd ⟨n, List.suffix_rfl⟩ hnot⟩
    · rw [asksDirectory_cons hslash]
      simp only [hslash, and_false, if_false, hshort, hk]
      cases kind with
      | link target => exact absurd rfl (hkind target)
      | directory => exact ih hji
      | file data => exact ih hji
  | @link j loc _ n rest target hd hn hk _ ih =>
    have hshort : ¬ longestName < n.length := Nat.not_lt.mpr hn
    obtain ⟨i, rfl⟩ : ∃ i', i = i' + 1 := ⟨i - 1, by omega⟩
    rw [advance_cons, hd]
    by_cases hslash : rest = [.slash]
    · subst hslash
      exact ⟨fun _ => rfl, fun hnot => absurd ⟨n, List.suffix_rfl⟩ hnot⟩
    · rw [asksDirectory_cons hslash]
      by_cases hlast : rest = []
      · -- the link itself is in the way
        subst hlast
        simp only [hslash, and_false, if_false, hshort, hk]
        refine ⟨?_, fun _ => ⟨loc ++ [n], rfl⟩⟩
        rintro ⟨m, hm⟩
        cases List.suffix_nil.mp hm
      · have hih := ih (i := i) (by omega)
        rw [asksDirectory_append _ hlast hslash] at hih
        simp only [hslash, hlast, and_false, false_and, if_false, hshort, hk]
        exact hih

/-- What a path leads to is in the way of a new file. -/
theorem create_of_at (hzero : p.hasZero = false) (hat : h.At p l k) (now : Instant)
    (data : ByteArray) :
    (AsksDirectory p.steps → h.write now p data .createNew = .error (.host .isDirectory)) ∧
      (¬ AsksDirectory p.steps → h.write now p data .createNew = .error (.host .exists)) := by
  obtain ⟨hne, hshort, ⟨j, hj, hl⟩, -⟩ := hat
  obtain ⟨hdirectory, hthere⟩ := advance_creating hl hj
  have hlookup : h.lookup .creating p p.steps =
      h.advance .creating linkLimit (h.startOf p) p.steps := by
    rw [lookup, if_neg hne, if_neg (Nat.not_le.mpr hshort)]
    rfl
  unfold write onPath create
  rw [hzero]
  constructor
  · intro hasks
    simp only [hlookup, hdirectory hasks]
    rfl
  · intro hnot
    obtain ⟨l, hentry⟩ := hthere hnot
    simp only [hlookup, hentry]
    rfl

/-- Steps that come to a free name, a link at the end not being followed, end in it. -/
theorem Advances.ends_in_name {m : Manner} (hm : m.followLast = false) {i : Nat} {a : Location}
    {ss : List Step} (ha : h.Advances m i a ss (.vacant dir n)) :
    ∃ before, ss = before ++ [.name n] := by
  generalize hspot : Spot.vacant dir n = spot at ha
  induction ha with
  | done => cases hspot
  | @stay _ _ step _ _ _ _ _ ih =>
    obtain ⟨before, rfl⟩ := ih hspot
    exact ⟨step :: before, rfl⟩
  | up _ _ ih =>
    obtain ⟨before, rfl⟩ := ih hspot
    exact ⟨.up :: before, rfl⟩
  | @name _ _ s _ _ _ _ _ _ _ _ ih =>
    obtain ⟨before, rfl⟩ := ih hspot
    exact ⟨.name s :: before, rfl⟩
  | @link _ _ s rest target _ _ _ _ hf _ ih =>
    have hrest : rest ≠ [] := by
      rcases hf with hf | hf
      · exact hf
      · rw [hm] at hf
        cases hf
    obtain ⟨before, hbefore⟩ := ih hspot
    rw [← List.dropLast_concat_getLast hrest, ← List.append_assoc] at hbefore
    obtain ⟨-, hlast⟩ := List.append_inj' hbefore rfl
    refine ⟨.name s :: rest.dropLast, ?_⟩
    rw [← hlast, List.cons_append, List.dropLast_concat_getLast hrest]
  | last => cases hspot
  | vacant =>
    cases hspot
    exact ⟨[], rfl⟩

/-- A free name that a path comes to, a link at the end not being followed, has no slash after it. -/
theorem free_of_lookup {m : Manner} (hm : m.followLast = false) (hzero : p.hasZero = false)
    (hlookup : h.lookup m p p.steps = .ok (.vacant dir n)) :
    h.Free p dir n ∧ p.steps = p.plainSteps := by
  obtain ⟨hne, hshort, ha⟩ := lookup_ok.mp hlookup
  have hadvances := advances_of_advance ha
  obtain ⟨before, hsteps⟩ := hadvances.ends_in_name hm
  have hplain : p.steps = p.plainSteps := by
    rcases p.steps_eq with hs | hs
    · exact hs
    · rw [hsteps] at hs
      obtain ⟨-, hlast⟩ := List.append_inj' hs rfl
      cases hlast
  rw [hsteps] at hadvances
  obtain ⟨j, i, dir', hij, hl, hlast⟩ := hadvances.before_name
  refine ⟨?_, hplain⟩
  have hbefore : p.plainSteps = before ++ [.name n] := hplain ▸ hsteps
  cases hlast with
  | stay hs => rcases hs with hs | hs <;> cases hs
  | name _ _ _ _ hr => cases hr
  | link _ _ _ hf =>
    rcases hf with hf | hf
    · exact absurd rfl hf
    · rw [hm] at hf
      cases hf
  | vacant hd hn hk => exact ⟨hne, hshort, hzero, ⟨before, hbefore, j, by omega, hl⟩, hd, hn, hk⟩

/-- A file is created under a free name, if no slash comes after the name, and nowhere else. -/
theorem create_ok_iff {now : Instant} {data : ByteArray} :
    h.write now p data .createNew = .ok h' ↔
      ∃ dir n, h.Free p dir n ∧ p.steps = p.plainSteps ∧
        h' = h.add now (dir ++ [n]) (.file data now) := by
  constructor
  · intro hwrite
    obtain ⟨hzero, hcreate⟩ := onPath_ok hwrite
    change h.create now p data = .ok h' at hcreate
    obtain ⟨spot, hlookup, hcreate⟩ := bind_eq_ok hcreate
    cases spot with
    | entry l => cases hcreate
    | vacant dir n =>
      cases hcreate
      obtain ⟨hfree, hplain⟩ := free_of_lookup rfl hzero hlookup
      exact ⟨dir, n, hfree, hplain, rfl⟩
  · rintro ⟨dir, n, hfree, hplain, rfl⟩
    unfold write
    rw [hfree.onPath]
    change (h.create now p data).mapError IoFault.host = _
    unfold create
    rw [hplain, hfree.lookup]
    rfl

/-- A file that is created is where its path leads, and nothing was there. -/
theorem create_puts {now : Instant} {data : ByteArray}
    (hwrite : h.write now p data .createNew = .ok h') :
    ∃ l, h.kind? l = none ∧ h.Puts p l (.file data) h' := by
  obtain ⟨dir, n, hfree, hplain, rfl⟩ := create_ok_iff.mp hwrite
  have hnode : ∀ target, HostNode.file data now ≠ .link target := fun _ => HostNode.noConfusion
  refine ⟨dir ++ [n], hfree.free, keeps_add hfree.free hnode, ?_, ?_⟩
  · exact fun l hl => sameAt_add now hfree.free hl
  · exact hfree.at_add now (fun _ => HostKind.noConfusion) (Or.inr hplain)

end Host

end ZipMount
