import ZipMount.Host.Calls
import ZipMount.Proofs.Except
import ZipMount.Proofs.Host.WellFormed

namespace ZipMount

namespace Host

/-- Where the target of a link is taken from. -/
def linkBase (target : Pathname) (loc : Location) : Location :=
  if target.isAbsolute then [] else loc

/-- Steps lead from one location to another over so many links, the last step's among them. -/
inductive Leads (h : Host) : Nat → Location → List Step → Location → Prop where
  | done (loc : Location) : Leads h 0 loc [] loc
  | stay {k : Nat} {loc l : Location} {step : Step} {rest : List Step}
      (hs : step = .here ∨ step = .slash) (hd : h.kind? loc = some .directory)
      (hr : Leads h k loc rest l) : Leads h k loc (step :: rest) l
  | up {k : Nat} {loc l : Location} {rest : List Step} (hd : h.kind? loc = some .directory)
      (hr : Leads h k loc.dropLast rest l) : Leads h k loc (.up :: rest) l
  | name {k : Nat} {loc l : Location} {n : Filename} {rest : List Step} {kind : HostKind}
      (hd : h.kind? loc = some .directory) (hn : n.length ≤ longestName)
      (hk : h.kind? (loc ++ [n]) = some kind) (hl : ∀ target, kind ≠ .link target)
      (hr : Leads h k (loc ++ [n]) rest l) : Leads h k loc (.name n :: rest) l
  | link {k : Nat} {loc l : Location} {n : Filename} {rest : List Step} {target : Pathname}
      (hd : h.kind? loc = some .directory) (hn : n.length ≤ longestName)
      (hk : h.kind? (loc ++ [n]) = some (.link target))
      (hr : Leads h k (linkBase target loc) (target.steps ++ rest) l) :
      Leads h (k + 1) loc (.name n :: rest) l

variable {h : Host}

theorem Leads.append {i j : Nat} {a b c : Location} {ss rest : List Step} (h₁ : h.Leads i a ss b)
    (h₂ : h.Leads j b rest c) : h.Leads (i + j) a (ss ++ rest) c := by
  induction h₁ with
  | done loc =>
    rw [Nat.zero_add]
    exact h₂
  | stay hs hd _ ih => exact .stay hs hd (ih h₂)
  | up hd _ ih => exact .up hd (ih h₂)
  | name hd hn hk hl _ ih => exact .name hd hn hk hl (ih h₂)
  | link hd hn hk _ ih =>
    have hr := ih h₂
    rw [List.append_assoc] at hr
    rw [Nat.add_right_comm]
    exact .link hd hn hk hr

theorem Leads.split {k : Nat} {a c : Location} {ss rest : List Step}
    (hl : h.Leads k a (ss ++ rest) c) :
    ∃ i j b, i + j = k ∧ h.Leads i a ss b ∧ h.Leads j b rest c := by
  generalize hsteps : ss ++ rest = steps at hl
  induction hl generalizing ss with
  | done loc =>
    obtain ⟨rfl, rfl⟩ := List.append_eq_nil_iff.mp hsteps
    exact ⟨0, 0, loc, rfl, .done loc, .done loc⟩
  | @stay k loc l step rest' hs hd hr ih =>
    cases ss with
    | nil =>
      rw [List.nil_append] at hsteps
      rw [hsteps]
      exact ⟨0, k, loc, Nat.zero_add k, .done loc, .stay hs hd hr⟩
    | cons s ss =>
      rw [List.cons_append, List.cons.injEq] at hsteps
      obtain ⟨rfl, hsteps⟩ := hsteps
      obtain ⟨i, j, b, hij, hb, hc⟩ := ih hsteps
      exact ⟨i, j, b, hij, .stay hs hd hb, hc⟩
  | @up k loc l rest' hd hr ih =>
    cases ss with
    | nil =>
      rw [List.nil_append] at hsteps
      rw [hsteps]
      exact ⟨0, k, loc, Nat.zero_add k, .done loc, .up hd hr⟩
    | cons s ss =>
      rw [List.cons_append, List.cons.injEq] at hsteps
      obtain ⟨rfl, hsteps⟩ := hsteps
      obtain ⟨i, j, b, hij, hb, hc⟩ := ih hsteps
      exact ⟨i, j, b, hij, .up hd hb, hc⟩
  | @name k loc l n rest' kind hd hn hk hl hr ih =>
    cases ss with
    | nil =>
      rw [List.nil_append] at hsteps
      rw [hsteps]
      exact ⟨0, k, loc, Nat.zero_add k, .done loc, .name hd hn hk hl hr⟩
    | cons s ss =>
      rw [List.cons_append, List.cons.injEq] at hsteps
      obtain ⟨rfl, hsteps⟩ := hsteps
      obtain ⟨i, j, b, hij, hb, hc⟩ := ih hsteps
      exact ⟨i, j, b, hij, .name hd hn hk hl hb, hc⟩
  | @link k loc l n rest' target hd hn hk hr ih =>
    cases ss with
    | nil =>
      rw [List.nil_append] at hsteps
      rw [hsteps]
      exact ⟨0, k + 1, loc, Nat.zero_add _, .done loc, .link hd hn hk hr⟩
    | cons s ss =>
      rw [List.cons_append, List.cons.injEq] at hsteps
      obtain ⟨rfl, rfl⟩ := hsteps
      obtain ⟨i, j, b, hij, hb, hc⟩ := ih (List.append_assoc _ _ _)
      exact ⟨i + 1, j, b, by omega, .link hd hn hk hb, hc⟩

theorem advance_nil (h : Host) (m : Manner) (k : Nat) (loc : Location) :
    h.advance m k loc [] = .ok (.entry loc) := by
  cases k <;> rfl

theorem advance_eq (h : Host) (m : Manner) (k : Nat) :
    h.advance m k = h.advanceWith m fun loc steps =>
      match k with
      | 0 => .error .tooManyLinks
      | k + 1 => h.advance m k loc steps := by
  cases k <;> rfl

theorem advance_cons (h : Host) (m : Manner) (k : Nat) (loc : Location) (step : Step)
    (rest : List Step) :
    h.advance m k loc (step :: rest) =
      match h.kind? loc with
      | none => .error .noEntry
      | some .directory =>
        match step with
        | .here => h.advance m k loc rest
        | .slash => h.advance m k loc rest
        | .up => h.advance m k loc.dropLast rest
        | .name n =>
          if m.refuseSlash ∧ rest = [.slash] then .error .isDirectory
          else if longestName < n.length then .error .nameTooLong
          else match h.kind? (loc ++ [n]) with
            | none => if rest = [] then .ok (.vacant loc n) else .error .noEntry
            | some (.link target) =>
              if rest = [] ∧ ¬ m.followLast then .ok (.entry (loc ++ [n]))
              else match k with
                | 0 => .error .tooManyLinks
                | k + 1 => h.advance m k (linkBase target loc) (target.steps ++ rest)
            | some _ => h.advance m k (loc ++ [n]) rest
      | some _ => .error .notDirectory := by
  have hkind : ∀ l, h.kind? l = (h.node? l).map HostNode.kind := fun _ => rfl
  rw [hkind, advance_eq, advanceWith.eq_def]
  simp only
  cases h.node? loc with
  | none => rfl
  | some node =>
    cases node with
    | file data modified => rfl
    | link target => rfl
    | directory modified =>
      cases step with
      | here => rfl
      | slash => rfl
      | up => rfl
      | name n =>
        simp only [Option.map_some, HostNode.kind, hkind]
        split
        · rfl
        · split
          · rfl
          · cases h.node? (loc ++ [n]) with
            | none => rfl
            | some node => cases node <;> rfl

theorem advance_of_leads {j k : Nat} {loc l : Location} {steps : List Step}
    (hl : h.Leads j loc steps l) (hjk : j ≤ k) : h.advance .target k loc steps = .ok (.entry l) := by
  induction hl generalizing k with
  | done loc => exact advance_nil h _ k loc
  | @stay _ loc l step rest hs hd _ ih =>
    rw [advance_cons, hd]
    rcases hs with rfl | rfl
    · exact ih hjk
    · exact ih hjk
  | up hd _ ih =>
    rw [advance_cons, hd]
    exact ih hjk
  | @name _ loc l n rest kind hd hn hk hl _ ih =>
    have hshort : ¬ longestName < n.length := Nat.not_lt.mpr hn
    rw [advance_cons, hd]
    simp only [Manner.target, Bool.false_eq_true, false_and, if_false, hshort, hk]
    cases kind with
    | link target => exact absurd rfl (hl target)
    | directory => exact ih hjk
    | file data => exact ih hjk
  | @link i loc l n rest target hd hn hk _ ih =>
    have hshort : ¬ longestName < n.length := Nat.not_lt.mpr hn
    obtain ⟨k, rfl⟩ : ∃ k', k = k' + 1 := ⟨k - 1, by omega⟩
    rw [advance_cons, hd]
    simp only [Manner.target, Bool.false_eq_true, false_and, if_false, hshort, hk, not_true_eq_false,
      and_false]
    exact ih (by omega)

/-- Looking up steps comes to a spot, following so many links at most. -/
inductive Advances (h : Host) (m : Manner) : Nat → Location → List Step → Spot → Prop where
  | done (k : Nat) (loc : Location) : Advances h m k loc [] (.entry loc)
  | stay {k : Nat} {loc : Location} {step : Step} {rest : List Step} {spot : Spot}
      (hs : step = .here ∨ step = .slash) (hd : h.kind? loc = some .directory)
      (hr : Advances h m k loc rest spot) : Advances h m k loc (step :: rest) spot
  | up {k : Nat} {loc : Location} {rest : List Step} {spot : Spot}
      (hd : h.kind? loc = some .directory) (hr : Advances h m k loc.dropLast rest spot) :
      Advances h m k loc (.up :: rest) spot
  | name {k : Nat} {loc : Location} {n : Filename} {rest : List Step} {kind : HostKind} {spot : Spot}
      (hd : h.kind? loc = some .directory) (hn : n.length ≤ longestName)
      (hk : h.kind? (loc ++ [n]) = some kind) (hl : ∀ target, kind ≠ .link target)
      (hr : Advances h m k (loc ++ [n]) rest spot) : Advances h m k loc (.name n :: rest) spot
  | link {k : Nat} {loc : Location} {n : Filename} {rest : List Step} {target : Pathname} {spot : Spot}
      (hd : h.kind? loc = some .directory) (hn : n.length ≤ longestName)
      (hk : h.kind? (loc ++ [n]) = some (.link target)) (hf : rest ≠ [] ∨ m.followLast = true)
      (hr : Advances h m k (linkBase target loc) (target.steps ++ rest) spot) :
      Advances h m (k + 1) loc (.name n :: rest) spot
  | last {k : Nat} {loc : Location} {n : Filename} {target : Pathname}
      (hd : h.kind? loc = some .directory) (hn : n.length ≤ longestName)
      (hk : h.kind? (loc ++ [n]) = some (.link target)) (hf : m.followLast = false) :
      Advances h m k loc [.name n] (.entry (loc ++ [n]))
  | vacant {k : Nat} {loc : Location} {n : Filename} (hd : h.kind? loc = some .directory)
      (hn : n.length ≤ longestName) (hk : h.kind? (loc ++ [n]) = none) :
      Advances h m k loc [.name n] (.vacant loc n)

theorem advances_of_advance {m : Manner} {k : Nat} {loc : Location} {steps : List Step}
    {spot : Spot} (ha : h.advance m k loc steps = .ok spot) : h.Advances m k loc steps spot := by
  induction k using Nat.strongRecOn generalizing loc steps with
  | ind k ihk =>
  induction steps generalizing loc with
  | nil =>
    rw [advance_nil] at ha
    cases ha
    exact .done k loc
  | cons step rest ih =>
    rw [advance_cons] at ha
    cases hd : h.kind? loc with
    | none => rw [hd] at ha; cases ha
    | some kind =>
      rw [hd] at ha
      cases kind with
      | file data => cases ha
      | link target => cases ha
      | directory =>
        cases step with
        | here => exact .stay (Or.inl rfl) hd (ih ha)
        | slash => exact .stay (Or.inr rfl) hd (ih ha)
        | up => exact .up hd (ih ha)
        | name n =>
          simp only at ha
          split at ha
          · cases ha
          split at ha
          · cases ha
          next hlong =>
          have hn : n.length ≤ longestName := Nat.not_lt.mp hlong
          cases hk : h.kind? (loc ++ [n]) with
          | none =>
            rw [hk] at ha
            simp only at ha
            split at ha
            · next hrest =>
              cases ha
              subst hrest
              exact .vacant hd hn hk
            · cases ha
          | some kind =>
            rw [hk] at ha
            cases kind with
            | directory => exact .name hd hn hk (fun _ => HostKind.noConfusion) (ih ha)
            | file data => exact .name hd hn hk (fun _ => HostKind.noConfusion) (ih ha)
            | link target =>
              simp only at ha
              split at ha
              · next hlast =>
                obtain ⟨rfl, hfollow⟩ := hlast
                cases ha
                exact .last hd hn hk (Bool.eq_false_iff.mpr hfollow)
              · next hlast =>
                have hf : rest ≠ [] ∨ m.followLast = true := by
                  by_cases hrest : rest = []
                  · exact Or.inr (Decidable.byContradiction fun hfollow => hlast ⟨hrest, hfollow⟩)
                  · exact Or.inl hrest
                cases k with
                | zero => cases ha
                | succ k => exact .link hd hn hk hf (ihk k (Nat.lt_succ_self k) ha)

/-- A path whose last link is followed, or that ends at no link. -/
theorem leads_of_advances {m : Manner} {k : Nat} {loc l : Location} {steps : List Step}
    (hm : m.followLast = true ∨ ∀ target, h.kind? l ≠ some (.link target))
    (ha : h.Advances m k loc steps (.entry l)) : ∃ j ≤ k, h.Leads j loc steps l := by
  generalize hspot : Spot.entry l = spot at ha
  induction ha with
  | done k loc =>
    cases hspot
    exact ⟨0, Nat.zero_le k, .done l⟩
  | stay hs hd _ ih =>
    obtain ⟨j, hj, hr⟩ := ih hspot
    exact ⟨j, hj, .stay hs hd hr⟩
  | up hd _ ih =>
    obtain ⟨j, hj, hr⟩ := ih hspot
    exact ⟨j, hj, .up hd hr⟩
  | name hd hn hk hl _ ih =>
    obtain ⟨j, hj, hr⟩ := ih hspot
    exact ⟨j, hj, .name hd hn hk hl hr⟩
  | link hd hn hk _ _ ih =>
    obtain ⟨j, hj, hr⟩ := ih hspot
    exact ⟨j + 1, Nat.succ_le_succ hj, .link hd hn hk hr⟩
  | last _ _ hk hf =>
    cases hspot
    rcases hm with hm | hm
    · rw [hf] at hm
      cases hm
    · exact absurd hk (hm _)
  | vacant => cases hspot

/-- A name at the end is looked up in the directory that the steps before it lead to. -/
theorem Advances.before_name {m : Manner} {k : Nat} {a : Location} {ss : List Step} {n : Filename}
    {spot : Spot} (ha : h.Advances m k a (ss ++ [.name n]) spot) :
    ∃ i j dir, i + j = k ∧ h.Leads i a ss dir ∧ h.Advances m j dir [.name n] spot := by
  generalize hsteps : ss ++ [Step.name n] = steps at ha
  induction ha generalizing ss with
  | done =>
    obtain ⟨-, hnil⟩ := List.append_eq_nil_iff.mp hsteps
    cases hnil
  | @stay k loc _ _ _ hs hd hr ih =>
    cases ss with
    | nil =>
      cases hsteps
      exact ⟨0, k, loc, Nat.zero_add k, .done loc, .stay hs hd hr⟩
    | cons s ss =>
      obtain ⟨rfl, hrest⟩ := List.cons.inj hsteps
      obtain ⟨i, j, dir, hij, hl, hlast⟩ := ih hrest
      exact ⟨i, j, dir, hij, .stay hs hd hl, hlast⟩
  | up hd _ ih =>
    cases ss with
    | nil => cases hsteps
    | cons s ss =>
      obtain ⟨rfl, hrest⟩ := List.cons.inj hsteps
      obtain ⟨i, j, dir, hij, hl, hlast⟩ := ih hrest
      exact ⟨i, j, dir, hij, .up hd hl, hlast⟩
  | @name k loc _ _ _ _ hd hn hk hkind hr ih =>
    cases ss with
    | nil =>
      cases hsteps
      exact ⟨0, k, loc, Nat.zero_add k, .done loc, .name hd hn hk hkind hr⟩
    | cons s ss =>
      obtain ⟨rfl, hrest⟩ := List.cons.inj hsteps
      obtain ⟨i, j, dir, hij, hl, hlast⟩ := ih hrest
      exact ⟨i, j, dir, hij, .name hd hn hk hkind hl, hlast⟩
  | @link k loc _ _ _ _ hd hn hk hf hr ih =>
    cases ss with
    | nil =>
      cases hsteps
      exact ⟨0, k + 1, loc, Nat.zero_add _, .done loc, .link hd hn hk hf hr⟩
    | cons s ss =>
      obtain ⟨rfl, rfl⟩ := List.cons.inj hsteps
      obtain ⟨i, j, dir, hij, hl, hlast⟩ := ih (List.append_assoc _ _ _)
      exact ⟨i + 1, j, dir, by omega, .link hd hn hk hl, hlast⟩
  | @last k loc _ _ hd hn hk hf =>
    cases ss with
    | nil =>
      cases hsteps
      exact ⟨0, k, loc, Nat.zero_add k, .done loc, .last hd hn hk hf⟩
    | cons s ss =>
      obtain ⟨-, hnil⟩ := List.cons.inj hsteps
      obtain ⟨-, hnil⟩ := List.append_eq_nil_iff.mp hnil
      cases hnil
  | @vacant k loc _ hd hn hk =>
    cases ss with
    | nil =>
      cases hsteps
      exact ⟨0, k, loc, Nat.zero_add k, .done loc, .vacant hd hn hk⟩
    | cons s ss =>
      obtain ⟨-, hnil⟩ := List.cons.inj hsteps
      obtain ⟨-, hnil⟩ := List.append_eq_nil_iff.mp hnil
      cases hnil

/-- A name is looked up in a directory. -/
theorem Advances.directory {m : Manner} {k : Nat} {dir : Location} {n : Filename} {spot : Spot}
    (ha : h.Advances m k dir [.name n] spot) : h.kind? dir = some .directory := by
  cases ha with
  | stay _ hd => exact hd
  | name hd => exact hd
  | link hd => exact hd
  | last hd => exact hd
  | vacant hd => exact hd

/-- A path that ends in a name leads to the entry of that name, if a link at the end is not
followed. -/
theorem leads_of_advances_itself {k : Nat} {loc l : Location} {ss : List Step} {n : Filename}
    (ha : h.Advances .itself k loc (ss ++ [.name n]) (.entry l)) :
    ∃ j ≤ k, ∃ dir, h.Leads j loc ss dir ∧ h.kind? dir = some .directory ∧ l = dir ++ [n] := by
  obtain ⟨i, j, dir, hij, hl, hlast⟩ := ha.before_name
  refine ⟨i, by omega, dir, hl, hlast.directory, ?_⟩
  cases hlast with
  | stay hs =>
    rcases hs with hs | hs
    · cases hs
    · cases hs
  | name _ _ _ _ hr =>
    cases hr
    rfl
  | link _ _ _ hf =>
    rcases hf with hf | hf
    · exact absurd rfl hf
    · cases hf
  | last => rfl

/-- Where a path is taken from. -/
def startOf (h : Host) (p : Pathname) : Location := if p.isAbsolute then [] else h.workingDirectory

/-- A path that leads to an entry, links at its end included. -/
structure At (h : Host) (p : Pathname) (loc : Location) (k : HostKind) : Prop where
  ne_nil : p.bytes ≠ []
  length_lt : p.bytes.length < pathLimit
  leads : ∃ j ≤ linkLimit, h.Leads j (h.startOf p) p.steps loc
  kind : h.kind? loc = some k

theorem lookup_ok {m : Manner} {p : Pathname} {steps : List Step} {spot : Spot} :
    h.lookup m p steps = .ok spot ↔
      p.bytes ≠ [] ∧ p.bytes.length < pathLimit ∧
        h.advance m linkLimit (h.startOf p) steps = .ok spot := by
  unfold lookup startOf
  by_cases hp : p.bytes = []
  · rw [if_pos hp]
    constructor
    · intro hl
      cases hl
    · rintro ⟨hne, -⟩
      exact absurd hp hne
  · rw [if_neg hp]
    by_cases hlong : pathLimit ≤ p.bytes.length
    · rw [if_pos hlong]
      constructor
      · intro hl
        cases hl
      · rintro ⟨-, hshort, -⟩
        exact absurd hlong (Nat.not_le.mpr hshort)
    · rw [if_neg hlong]
      constructor
      · intro hl
        exact ⟨hp, Nat.not_le.mp hlong, hl⟩
      · rintro ⟨-, -, hl⟩
        exact hl

theorem find_ok {m : Manner} {p : Pathname} {loc : Location} {node : HostNode} :
    h.find m p = .ok (loc, node) ↔
      h.lookup m p p.steps = .ok (.entry loc) ∧ h.node? loc = some node := by
  unfold find
  constructor
  · intro hf
    obtain ⟨spot, hl, hf⟩ := bind_eq_ok hf
    cases spot with
    | vacant dir n => cases hf
    | entry l =>
      cases hn : h.node? l with
      | none =>
        simp only [hn] at hf
        cases hf
      | some n =>
        simp only [hn] at hf
        cases hf
        exact ⟨hl, hn⟩
  · rintro ⟨hl, hn⟩
    rw [hl]
    simp only [bind, Except.bind, hn]
    rfl

theorem find_target_iff {p : Pathname} {loc : Location} {k : HostKind} :
    (∃ node, h.find .target p = .ok (loc, node) ∧ node.kind = k) ↔ h.At p loc k := by
  constructor
  · rintro ⟨node, hf, rfl⟩
    obtain ⟨hl, hn⟩ := find_ok.mp hf
    obtain ⟨hne, hlt, ha⟩ := lookup_ok.mp hl
    refine ⟨hne, hlt, leads_of_advances (Or.inl rfl) (advances_of_advance ha), ?_⟩
    rw [kind?, hn]
    rfl
  · rintro ⟨hne, hlt, ⟨j, hj, hl⟩, hk⟩
    rw [kind?, Option.map_eq_some_iff] at hk
    obtain ⟨node, hn, rfl⟩ := hk
    have hlookup := lookup_ok.mpr ⟨hne, hlt, advance_of_leads hl hj⟩
    exact ⟨node, find_ok.mpr ⟨hlookup, hn⟩, rfl⟩

theorem at_of_find {p : Pathname} {loc : Location} {node : HostNode}
    (hf : h.find .target p = .ok (loc, node)) : h.At p loc node.kind :=
  find_target_iff.mp ⟨node, hf, rfl⟩

/-- What is found without following a link at the end, and is no link. -/
theorem at_of_find_itself {p : Pathname} {loc : Location} {node : HostNode}
    (hf : h.find .itself p = .ok (loc, node)) (hnode : ∀ target, node ≠ .link target) :
    h.At p loc node.kind := by
  obtain ⟨hl, hn⟩ := find_ok.mp hf
  obtain ⟨hne, hlt, ha⟩ := lookup_ok.mp hl
  have hk : h.kind? loc = some node.kind := by
    rw [kind?, hn]
    rfl
  refine ⟨hne, hlt, leads_of_advances (Or.inr ?_) (advances_of_advance ha), hk⟩
  intro target hl
  rw [hk, Option.some.injEq] at hl
  cases node with
  | directory modified => cases hl
  | file data modified => cases hl
  | link t => exact hnode t rfl

theorem At.unique {p : Pathname} {a b : Location} {k k' : HostKind} (ha : h.At p a k)
    (hb : h.At p b k') : a = b ∧ k = k' := by
  obtain ⟨na, hfa, rfl⟩ := find_target_iff.mpr ha
  obtain ⟨nb, hfb, rfl⟩ := find_target_iff.mpr hb
  rw [hfa, Except.ok.injEq, Prod.mk.injEq] at hfb
  exact ⟨hfb.1, congrArg HostNode.kind hfb.2⟩

/-- What is looked up does not change when entries are added. -/
theorem Leads.mono {h' : Host} (hsame : ∀ l k, h.kind? l = some k → h'.kind? l = some k) {j : Nat}
    {a b : Location} {ss : List Step} (hl : h.Leads j a ss b) : h'.Leads j a ss b := by
  induction hl with
  | done loc => exact .done loc
  | stay hs hd _ ih => exact .stay hs (hsame _ _ hd) ih
  | up hd _ ih => exact .up (hsame _ _ hd) ih
  | name hd hn hk hl _ ih => exact .name (hsame _ _ hd) hn (hsame _ _ hk) hl ih
  | link hd hn hk _ ih => exact .link (hsame _ _ hd) hn (hsame _ _ hk) ih

theorem At.mono {h' : Host} (hsame : ∀ l k, h.kind? l = some k → h'.kind? l = some k)
    (hcwd : h'.workingDirectory = h.workingDirectory) {p : Pathname} {l : Location} {k : HostKind}
    (hat : h.At p l k) : h'.At p l k := by
  obtain ⟨hne, hlt, ⟨j, hj, hl⟩, hk⟩ := hat
  have hstart : h'.startOf p = h.startOf p := by rw [startOf, startOf, hcwd]
  refine ⟨hne, hlt, ⟨j, hj, ?_⟩, hsame l k hk⟩
  rw [hstart]
  exact hl.mono hsame

variable {p : Pathname} {n : Filename}

theorem onPath_ok {α : Type} {r : Except Errno α} {x : α} (hr : onPath p r = .ok x) :
    p.hasZero = false ∧ r = .ok x := by
  unfold onPath at hr
  cases hz : p.hasZero with
  | true =>
    rw [hz] at hr
    cases hr
  | false =>
    rw [hz] at hr
    cases r with
    | error e => cases hr
    | ok y =>
      cases hr
      exact ⟨rfl, rfl⟩

theorem startOf_join (hp : p.bytes ≠ []) (hn : IsSegment n) :
    h.startOf (p.join ⟨n⟩) = h.startOf p := by
  rw [startOf, startOf, Pathname.isAbsolute_join hp hn]

/-- A directory that the steps before a name lead to. -/
theorem at_of_leads_plainSteps (hp : p.bytes ≠ []) (hlt : p.bytes.length < pathLimit) {j : Nat}
    (hj : j ≤ linkLimit) {dir : Location} (hl : h.Leads j (h.startOf p) p.plainSteps dir)
    (hd : h.kind? dir = some .directory) : h.At p dir .directory := by
  refine ⟨hp, hlt, ⟨j, hj, ?_⟩, hd⟩
  rcases p.steps_eq with hs | hs
  · rw [hs]
    exact hl
  · rw [hs]
    exact hl.append (.stay (Or.inr rfl) hd (.done dir))

/-- A path that ends in a name leads to a directory without it, where the name is. -/
theorem At.of_join (hp : p.bytes ≠ []) (hn : IsSegment n) {l : Location} {k : HostKind}
    (ha : h.At (p.join ⟨n⟩) l k) :
    ∃ dir, h.At p dir .directory ∧ n ∈ h.namesIn dir := by
  obtain ⟨-, hlt, ⟨j, hj, hl⟩, -⟩ := ha
  have hshort := Nat.lt_trans (Pathname.length_join hp hn) hlt
  rw [startOf_join hp hn, Pathname.steps_join hp hn] at hl
  obtain ⟨i, j', dir, hij, hdir, hlast⟩ := hl.split
  have hmem : ∀ {k}, h.kind? (dir ++ [n]) = some k → n ∈ h.namesIn dir :=
    fun hk => mem_namesIn.mpr (mem_keys_of_kind? (by simp) hk)
  cases hlast with
  | stay hs hd hr =>
    rcases hs with hs | hs
    · cases hs
    · cases hs
  | name hd _ hk _ _ => exact ⟨dir, at_of_leads_plainSteps hp hshort (by omega) hdir hd, hmem hk⟩
  | link hd _ hk _ => exact ⟨dir, at_of_leads_plainSteps hp hshort (by omega) hdir hd, hmem hk⟩

/-- What a name is found to be in the directory that the path before it leads to. -/
theorem find_itself_join (hp : p.bytes ≠ []) (hn : IsSegment n) {l : Location} {node : HostNode}
    (hf : h.find .itself (p.join ⟨n⟩) = .ok (l, node)) :
    ∃ dir, h.At p dir .directory ∧ l = dir ++ [n] := by
  obtain ⟨-, hlt, ha⟩ := lookup_ok.mp (find_ok.mp hf).1
  have hshort := Nat.lt_trans (Pathname.length_join hp hn) hlt
  rw [startOf_join hp hn, Pathname.steps_join hp hn] at ha
  obtain ⟨j, hj, dir, hl, hd, rfl⟩ := leads_of_advances_itself (advances_of_advance ha)
  exact ⟨dir, at_of_leads_plainSteps hp hshort hj hl hd, rfl⟩

end Host

end ZipMount
