import ZipMount.Host.Lookup
import ZipMount.Proofs.Text

namespace ZipMount

/-- What a path can call an entry: something without a slash that is neither one dot nor two. -/
def IsSegment (n : Filename) : Prop := n ≠ [] ∧ n ≠ [46] ∧ n ≠ [46, 46] ∧ 47 ∉ n

instance (n : Filename) : Decidable (IsSegment n) := inferInstanceAs (Decidable (_ ∧ _ ∧ _ ∧ _))

theorem Step.ofSegment?_name {n : Filename} (hn : IsSegment n) :
    Step.ofSegment? n = some (.name n) := by
  simp [Step.ofSegment?, hn.1, hn.2.1, hn.2.2.1]

theorem Component.ofSegment?_name {n : Filename} (hn : IsSegment n) :
    Component.ofSegment? n = some (.name n) := by
  simp [Component.ofSegment?, hn.1, hn.2.1, hn.2.2.1]

namespace Pathname

/-- A path with names put to it one after the other. -/
def under (p : Pathname) (names : List Filename) : Pathname := names.foldl (fun p n => p.join ⟨n⟩) p

@[simp] theorem under_nil (p : Pathname) : p.under [] = p := rfl

theorem under_cons (p : Pathname) (n : Filename) (names : List Filename) :
    p.under (n :: names) = (p.join ⟨n⟩).under names := rfl

theorem under_concat (p : Pathname) (names : List Filename) (n : Filename) :
    p.under (names ++ [n]) = (p.under names).join ⟨n⟩ := List.foldl_append

variable {p : Pathname} {n : Filename}

/-- A path before a name: with a slash at its end, or without. -/
theorem join_cases (hp : p.bytes ≠ []) (hn : IsSegment n) :
    (∃ xs, p.bytes = xs ++ [47] ∧ (p.join ⟨n⟩).bytes = xs ++ 47 :: n) ∨
      (p.bytes.getLast? ≠ some 47 ∧ (p.join ⟨n⟩).bytes = p.bytes ++ 47 :: n) := by
  have hrelative : (⟨n⟩ : Pathname).isAbsolute = false := by
    rw [isAbsolute, beq_eq_false_iff_ne]
    intro h
    exact hn.2.2.2 (List.mem_of_mem_head? h)
  by_cases hlast : p.bytes.getLast? = some 47
  · left
    obtain ⟨xs, hxs⟩ := List.getLast?_eq_some_iff.mp hlast
    refine ⟨xs, hxs, ?_⟩
    rw [join, hrelative]
    simp only [Bool.false_eq_true, if_false, hlast, or_true, if_true]
    rw [hxs, List.append_assoc]
    rfl
  · right
    refine ⟨hlast, ?_⟩
    rw [join, hrelative]
    simp only [Bool.false_eq_true, if_false, hp, hlast, or_self]

theorem length_join (hp : p.bytes ≠ []) (hn : IsSegment n) :
    p.bytes.length < (p.join ⟨n⟩).bytes.length := by
  have hlength := List.length_pos_iff.mpr hn.1
  rcases join_cases hp hn with ⟨xs, hxs, hj⟩ | ⟨-, hj⟩
  · rw [hj, hxs]
    simp
    omega
  · rw [hj]
    simp

theorem join_ne_nil (hp : p.bytes ≠ []) (hn : IsSegment n) : (p.join ⟨n⟩).bytes ≠ [] := by
  have hlength := length_join hp hn
  intro h
  rw [h] at hlength
  exact Nat.not_lt_zero _ hlength

theorem isAbsolute_join (hp : p.bytes ≠ []) (hn : IsSegment n) :
    (p.join ⟨n⟩).isAbsolute = p.isAbsolute := by
  rcases join_cases hp hn with ⟨xs, hxs, hj⟩ | ⟨-, hj⟩
  · rw [isAbsolute, isAbsolute, hj, hxs]
    cases xs <;> rfl
  · rw [isAbsolute, isAbsolute, hj]
    obtain ⟨b, bs, hb⟩ := List.exists_cons_of_ne_nil hp
    rw [hb]
    rfl

theorem segments_join (hp : p.bytes ≠ []) (hn : IsSegment n) :
    ∃ first rest, (p.join ⟨n⟩).segments = first :: (rest ++ [n]) ∧
      (p.segments = first :: rest ∨ p.segments = first :: (rest ++ [[]])) := by
  have hpieces : ∀ xs : List UInt8, Text.pieces 47 (xs ++ 47 :: n) = Text.pieces 47 xs ++ [n] := by
    intro xs
    rw [Text.pieces_append_sep, Text.pieces_of_not_mem hn.2.2.2]
  rcases join_cases hp hn with ⟨xs, hxs, hj⟩ | ⟨-, hj⟩
  · obtain ⟨first, rest, hfirst⟩ := List.exists_cons_of_ne_nil (Text.pieces_ne_nil 47 xs)
    refine ⟨first, rest, ?_, Or.inr ?_⟩
    · rw [segments, hj, hpieces, hfirst]
      rfl
    · rw [segments, hxs, Text.pieces_append_sep, hfirst]
      rfl
  · obtain ⟨first, rest, hfirst⟩ := List.exists_cons_of_ne_nil (Text.pieces_ne_nil 47 p.bytes)
    refine ⟨first, rest, ?_, Or.inl hfirst⟩
    rw [segments, hj, hpieces, hfirst]
    rfl

theorem plainSteps_join (hp : p.bytes ≠ []) (hn : IsSegment n) :
    (p.join ⟨n⟩).plainSteps = p.plainSteps ++ [.name n] := by
  obtain ⟨first, rest, hj, hs⟩ := segments_join hp hn
  have hname : [n].filterMap Step.ofSegment? = [.name n] := by
    rw [List.filterMap_cons_some (Step.ofSegment?_name hn)]
    rfl
  have hcons : first :: (rest ++ [n]) = (first :: rest) ++ [n] := rfl
  rw [plainSteps, plainSteps, hj, hcons, List.filterMap_append, hname]
  rcases hs with hs | hs
  · rw [hs]
  · have hcons : first :: (rest ++ [[]]) = (first :: rest) ++ [[]] := rfl
    have hempty : [([] : Filename)].filterMap Step.ofSegment? = [] := rfl
    rw [hs, hcons, List.filterMap_append, hempty, List.append_nil]

/-- A name at the end is the last step, and what is before it asks for no directory. -/
theorem steps_join (hp : p.bytes ≠ []) (hn : IsSegment n) :
    (p.join ⟨n⟩).steps = p.plainSteps ++ [.name n] := by
  have hlast : (p.join ⟨n⟩).bytes.getLast? ≠ some 47 := by
    have hmem : ∀ xs : List UInt8, (xs ++ 47 :: n).getLast? ≠ some 47 := by
      intro xs h
      rw [List.getLast?_append, List.getLast?_cons_of_ne_nil hn.1,
        List.getLast?_eq_some_getLast hn.1, Option.some_or, Option.some.injEq] at h
      exact hn.2.2.2 (h ▸ List.getLast_mem hn.1)
    rcases join_cases hp hn with ⟨xs, -, hj⟩ | ⟨-, hj⟩
    · rw [hj]
      exact hmem xs
    · rw [hj]
      exact hmem p.bytes
  have hplain := plainSteps_join hp hn
  rw [plainSteps] at hplain
  simp only [steps, hlast, and_false, if_false, hplain]

theorem steps_eq (p : Pathname) : p.steps = p.plainSteps ∨ p.steps = p.plainSteps ++ [.slash] := by
  rw [steps, plainSteps]
  split
  · exact Or.inr rfl
  · exact Or.inl rfl

theorem components_join (hp : p.bytes ≠ []) (hn : IsSegment n) :
    (p.join ⟨n⟩).components = p.components ++ [.name n] := by
  obtain ⟨first, rest, hj, hs⟩ := segments_join hp hn
  have hname : [n].filterMap Component.ofSegment? = [.name n] := by
    rw [List.filterMap_cons_some (Component.ofSegment?_name hn)]
    rfl
  have hfirst : (p.join ⟨n⟩).firstComponent first = p.firstComponent first := by
    rw [firstComponent, firstComponent, isAbsolute_join hp hn]
  rw [components, hj]
  change (p.join ⟨n⟩).firstComponent first ++ (rest ++ [n]).filterMap Component.ofSegment? = _
  rw [hfirst, List.filterMap_append, hname, components]
  rcases hs with hs | hs
  · rw [hs]
    exact (List.append_assoc _ _ _).symm
  · have hempty : [([] : Filename)].filterMap Component.ofSegment? = [] := rfl
    rw [hs]
    change _ = (p.firstComponent first ++ (rest ++ [[]]).filterMap Component.ofSegment?) ++ _
    rw [List.filterMap_append, hempty, List.append_nil, List.append_assoc]

theorem components_ne_nil (hp : p.bytes ≠ []) : p.components ≠ [] := by
  obtain ⟨b, bs, hb⟩ := List.exists_cons_of_ne_nil hp
  obtain ⟨first, more, hmore⟩ := List.exists_cons_of_ne_nil (Text.pieces_ne_nil 47 bs)
  have hfirst : ∀ s : Filename, s = b :: first → p.firstComponent s ≠ [] := by
    rintro s rfl
    unfold firstComponent Component.ofSegment?
    by_cases hdot : b :: first = [46]
    · rw [if_neg (List.cons_ne_nil b first), if_pos hdot]
      exact List.cons_ne_nil _ _
    · rw [if_neg (List.cons_ne_nil b first), if_neg hdot,
        if_neg (not_or.mpr ⟨List.cons_ne_nil b first, hdot⟩)]
      split <;> exact List.cons_ne_nil _ _
  intro h
  by_cases hslash : b = 47
  · have hsegments : p.segments = [] :: Text.pieces 47 bs := by
      rw [segments, hb, Text.pieces, if_pos hslash]
    have habsolute : p.isAbsolute = true := by
      rw [isAbsolute, hb, hslash]
      rfl
    have hroot : p.firstComponent [] = [.root] := by
      rw [firstComponent, if_pos rfl, if_pos habsolute]
    rw [components, hsegments] at h
    have hcons := (List.append_eq_nil_iff.mp h).1
    rw [hroot] at hcons
    cases hcons
  · have hsegments : p.segments = (b :: first) :: more := by
      rw [segments, hb, Text.pieces, if_neg hslash, hmore]
    rw [components, hsegments] at h
    exact hfirst _ rfl (List.append_eq_nil_iff.mp h).1

theorem under_ne_nil (hp : p.bytes ≠ []) {names : List Filename}
    (hnames : ∀ n ∈ names, IsSegment n) : (p.under names).bytes ≠ [] := by
  induction names generalizing p with
  | nil => exact hp
  | cons n names ih =>
    have hrest : ∀ m ∈ names, IsSegment m := fun m hm => hnames m (List.mem_cons_of_mem n hm)
    rw [under_cons]
    exact ih (join_ne_nil hp (hnames n List.mem_cons_self)) hrest

theorem components_under (hp : p.bytes ≠ []) {names : List Filename}
    (hnames : ∀ n ∈ names, IsSegment n) :
    (p.under names).components = p.components ++ names.map .name := by
  induction names generalizing p with
  | nil => simp
  | cons n names ih =>
    have hn := hnames n List.mem_cons_self
    have hrest : ∀ m ∈ names, IsSegment m := fun m hm => hnames m (List.mem_cons_of_mem n hm)
    rw [under_cons, ih (join_ne_nil hp hn) hrest, components_join hp hn]
    simp

/-- Names put to a path are what is left of it when the path is taken off. -/
theorem relativeTo?_under (hp : p.bytes ≠ []) {names : List Filename}
    (hnames : ∀ n ∈ names, IsSegment n) :
    (p.under names).relativeTo? p = some (names.map .name) := by
  rw [relativeTo?, components_under hp hnames]
  have hpre : p.components.isPrefixOf (p.components ++ names.map Component.name) = true :=
    List.isPrefixOf_iff_prefix.mpr (List.prefix_append _ _)
  rw [if_pos hpre, List.drop_left]

variable {q : Pathname}

/-- Names all say something. -/
theorem trimmed_eq {ss : List Filename} (h : ∀ s ∈ ss, IsSegment s) : trimmed ss = ss := by
  unfold trimmed
  cases hrev : ss.reverse with
  | nil => exact (List.reverse_eq_nil_iff.mp hrev).symm
  | cons s rest =>
    have hs : s ∈ ss := List.mem_reverse.mp (hrev ▸ List.mem_cons_self)
    rw [List.dropWhile_cons, Component.ofSegment?_name (h s hs), ← hrev]
    exact List.reverse_reverse ss

theorem trimmed_isStart (ss : List Filename) : trimmed ss <+: ss := by
  have hsuffix := List.dropWhile_suffix (l := ss.reverse)
    (fun s => (Component.ofSegment? s).isNone)
  have hprefix := List.reverse_prefix.mpr hsuffix
  rw [List.reverse_reverse] at hprefix
  exact hprefix

/-- The path before the last step is a start of the path, and absolute if it is. -/
theorem parent_append (h : p.parent = some q) :
    ∃ rest, rest ≠ [] ∧ p.bytes = q.bytes ++ rest ∧ (p.isAbsolute = true → q.isAbsolute = true) := by
  unfold parent at h
  have hbytes : p.bytes = Text.joined 47 p.segments := (Text.joined_pieces 47 p.bytes).symm
  cases hs : p.segments with
  | nil =>
    rw [hs] at h
    cases h
  | cons first rest =>
    rw [hs] at h hbytes
    have hslash : p.isAbsolute = true → ∃ more, p.bytes = 47 :: more := by
      intro ha
      rw [isAbsolute, beq_iff_eq, List.head?_eq_some_iff] at ha
      exact ha
    have hfirst : p.isAbsolute = true → first = [] := by
      intro ha
      obtain ⟨more, hmore⟩ := hslash ha
      rw [segments, hmore] at hs
      exact (List.cons.inj hs).1.symm
    simp only at h
    split at h
    · split at h
      · cases h
      · next hne =>
        cases h
        refine ⟨p.bytes, ?_, rfl, fun ha => absurd (hfirst ha) hne⟩
        intro hnil
        rw [segments, hnil] at hs
        exact hne (List.cons.inj hs).1.symm
    · next hkept =>
      split at h
      · next hroot =>
        cases h
        obtain ⟨more, hmore⟩ := hslash hroot.1
        refine ⟨more, ?_, hmore, fun _ => rfl⟩
        rintro rfl
        rw [segments, hmore] at hs
        cases hs
        exact hkept (by decide)
      · next hroot =>
        cases h
        have hpre := (trimmed_isStart (trimmed rest).dropLast).trans (List.dropLast_prefix _)
        obtain ⟨tail, htail⟩ := hpre.trans (trimmed_isStart rest)
        have hne : tail ≠ [] := by
          rintro rfl
          have hshort := (trimmed_isStart (trimmed rest).dropLast).length_le
          have hlong := (trimmed_isStart rest).length_le
          have hpos := List.length_pos_iff.mpr hkept
          have hlength := congrArg List.length htail
          rw [List.length_append, List.length_nil] at hlength
          rw [List.length_dropLast] at hshort
          omega
        refine ⟨47 :: Text.joined 47 tail, List.cons_ne_nil _ _, ?_, ?_⟩
        · rw [hbytes]
          conv => lhs; rw [← htail, ← List.cons_append]
          exact Text.joined_append (List.cons_ne_nil _ _) hne
        · intro ha
          have hbefore : trimmed (trimmed rest).dropLast ≠ [] := fun hb => hroot ⟨ha, hb⟩
          rw [hfirst ha, Text.joined_cons hbefore]
          rfl

/-- A name at the end is a step. -/
theorem trimmed_concat (ss : List Filename) (hn : IsSegment n) : trimmed (ss ++ [n]) = ss ++ [n] := by
  unfold trimmed
  rw [List.reverse_concat, List.dropWhile_cons, Component.ofSegment?_name hn]
  exact List.reverse_cons.trans (by rw [List.reverse_reverse])

/-- Only dots are trimmed. -/
theorem filterMap_trimmed (ss : List Filename) : ∃ dots, ss.filterMap Step.ofSegment? =
    (trimmed ss).filterMap Step.ofSegment? ++ List.replicate dots .here := by
  let tail := (ss.reverse.takeWhile fun s => (Component.ofSegment? s).isNone).reverse
  have hsplit : ss = trimmed ss ++ tail := by
    rw [trimmed, ← List.reverse_append, List.takeWhile_append_dropWhile, List.reverse_reverse]
  refine ⟨(tail.filterMap Step.ofSegment?).length, ?_⟩
  have hdots : ∀ step ∈ tail.filterMap Step.ofSegment?, step = Step.here := by
    intro step hstep
    obtain ⟨s, hs, hof⟩ := List.mem_filterMap.mp hstep
    have hnone := List.all_eq_true.mp List.all_takeWhile s (List.mem_reverse.mp hs)
    unfold Component.ofSegment? at hnone
    unfold Step.ofSegment? at hof
    split at hof
    · cases hof
    · next hempty =>
      split at hof
      · cases hof
        rfl
      · next hdot =>
        rw [if_neg (not_or.mpr ⟨hempty, hdot⟩)] at hnone
        split at hnone
        · cases hnone
        · cases hnone
  conv => lhs; rw [hsplit, List.filterMap_append]
  rw [List.eq_replicate_of_mem hdots, List.length_replicate]

/-- The path before a name leads where the path does to which the name was put, dots apart. -/
theorem parent_join (hp : p.bytes ≠ []) (hn : IsSegment n) : ∃ q, (p.join ⟨n⟩).parent = some q ∧
    q.bytes ≠ [] ∧ ∃ dots, p.plainSteps = q.plainSteps ++ List.replicate dots .here := by
  obtain ⟨first, rest, hj, hs⟩ := segments_join hp hn
  obtain ⟨dots, hdots⟩ := filterMap_trimmed rest
  have hsteps : p.plainSteps = [first].filterMap Step.ofSegment? ++ rest.filterMap Step.ofSegment? := by
    have hempty : [([] : Filename)].filterMap Step.ofSegment? = [] := rfl
    rw [plainSteps, ← List.filterMap_append]
    rcases hs with hs | hs
    · rw [hs]
      rfl
    · rw [hs, ← List.cons_append, List.filterMap_append, hempty, List.append_nil]
      rfl
  -- what comes before the first slash is empty on an absolute path only
  have hfirst : first = [] ↔ p.isAbsolute = true := by
    obtain ⟨b, bs, hb⟩ := List.exists_cons_of_ne_nil hp
    have hhead : p.segments.head? = some first := by
      rcases hs with hs | hs <;> rw [hs] <;> rfl
    rw [segments, hb, Text.pieces] at hhead
    rw [isAbsolute, hb]
    by_cases hslash : b = 47
    · rw [if_pos hslash] at hhead
      simp_all
    · rw [if_neg hslash] at hhead
      obtain ⟨x, more, hmore⟩ := List.exists_cons_of_ne_nil (Text.pieces_ne_nil 47 bs)
      rw [hmore] at hhead
      cases hhead
      simp [hslash]
  have hparent : (p.join ⟨n⟩).parent = if p.isAbsolute ∧ trimmed rest = [] then some ⟨[47]⟩
      else some ⟨Text.joined 47 (first :: trimmed rest)⟩ := by
    have hkept : rest ++ [n] ≠ [] := by simp
    rw [parent, hj, isAbsolute_join hp hn]
    simp only [trimmed_concat rest hn, if_neg hkept, List.dropLast_concat]
  rw [hparent]
  split
  · next hroot =>
    refine ⟨_, rfl, List.cons_ne_nil _ _, dots, ?_⟩
    rw [hsteps, hdots, hfirst.mpr hroot.1, hroot.2]
    rfl
  · next hroot =>
    have hmem : ∀ s ∈ first :: trimmed rest, 47 ∉ s := by
      intro s hs'
      have hin : s ∈ p.segments := by
        have hsub : s ∈ first :: rest := by
          rcases List.mem_cons.mp hs' with rfl | hs'
          · exact List.mem_cons_self
          · exact List.mem_cons_of_mem _ ((trimmed_isStart rest).subset hs')
        rcases hs with hs | hs
        · rw [hs]
          exact hsub
        · rw [hs, ← List.cons_append]
          exact List.mem_append_left _ hsub
      exact Text.not_mem_pieces hin
    refine ⟨_, rfl, ?_, dots, ?_⟩
    · intro hnil
      by_cases hbefore : trimmed rest = []
      · rw [hbefore] at hnil
        exact hroot ⟨hfirst.mp hnil, hbefore⟩
      · rw [Text.joined_cons hbefore] at hnil
        exact absurd hnil (by simp)
    · have hpieces := Text.pieces_joined (List.cons_ne_nil first (trimmed rest)) hmem
      rw [hsteps, hdots, plainSteps, segments, hpieces, ← List.append_assoc, ← List.filterMap_append]
      rfl

/-- The path before a name is the path to which the name was put, if that ends in a name. -/
theorem parent_join_join (hp : p.bytes ≠ []) {m : Filename} (hm : IsSegment m) (hn : IsSegment n) :
    ((p.join ⟨m⟩).join ⟨n⟩).parent = some (p.join ⟨m⟩) := by
  obtain ⟨first, rest, hj, hs⟩ := segments_join (join_ne_nil hp hm) hn
  obtain ⟨first', before, hj', -⟩ := segments_join hp hm
  have hrest : rest = before ++ [m] := by
    rcases hs with hs | hs
    · rw [hj'] at hs
      exact (List.cons.inj hs).2.symm
    · rw [hj'] at hs
      obtain ⟨-, hlast⟩ := List.append_inj' (List.cons.inj hs).2 rfl
      cases hlast
      exact absurd rfl hm.1
  have hsegments : (p.join ⟨m⟩).segments = first :: rest := by
    rcases hs with hs | hs
    · exact hs
    · rw [hj', hrest] at hs
      have hlength := congrArg List.length hs
      simp at hlength
  have hkept : rest ++ [n] ≠ [] := by simp
  have hbefore : ¬ (((p.join ⟨m⟩).join ⟨n⟩).isAbsolute = true ∧ before ++ [m] = []) := by simp
  rw [parent, hj]
  simp only [trimmed_concat rest hn, if_neg hkept, List.dropLast_concat]
  rw [hrest, trimmed_concat before hm, if_neg hbefore, ← hrest, ← hsegments, segments,
    Text.joined_pieces]

/-- The path before the last step is shorter. -/
theorem length_parent (h : p.parent = some q) : q.bytes.length < p.bytes.length := by
  obtain ⟨rest, hrest, hbytes, -⟩ := parent_append h
  have hpos := List.length_pos_iff.mpr hrest
  rw [hbytes, List.length_append]
  omega

theorem hasZero_eq_false : p.hasZero = false ↔ (0 : UInt8) ∉ p.bytes := by
  rw [hasZero, Bool.eq_false_iff, ne_eq, List.contains_iff_mem]

theorem hasZero_parent (h : p.parent = some q) (hp : p.hasZero = false) : q.hasZero = false := by
  obtain ⟨rest, -, hbytes, -⟩ := parent_append h
  rw [hasZero_eq_false, hbytes, List.mem_append, not_or] at hp
  exact hasZero_eq_false.mpr hp.1

theorem hasZero_join (hp : p.hasZero = false) (hq : q.hasZero = false) :
    (p.join q).hasZero = false := by
  rw [hasZero_eq_false] at hp hq ⊢
  unfold join
  split
  · exact hq
  · split
    · simp [hp, hq]
    · simp [hp, hq]

theorem isAbsolute_parent (h : p.parent = some q) : q.isAbsolute = p.isAbsolute := by
  obtain ⟨rest, -, hbytes, habsolute⟩ := parent_append h
  rw [Bool.eq_iff_iff]
  refine ⟨fun ha => ?_, habsolute⟩
  rw [isAbsolute, beq_iff_eq, List.head?_eq_some_iff] at ha
  obtain ⟨more, hmore⟩ := ha
  rw [isAbsolute, hbytes, hmore]
  rfl

end Pathname

end ZipMount
