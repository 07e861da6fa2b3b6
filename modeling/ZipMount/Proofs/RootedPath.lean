import ZipMount.Proofs.MemberPath

namespace ZipMount

/-- A path of the mount that names the key. -/
def Path.Names (id : MountId) (k : MemberKey) (p : Path) : Prop :=
  ∃ q, p = .member id q ∧ MemberKey.ofPathname q = k

namespace Pathname

/-- A path that a text says, from the root. -/
def IsRooted (q : Pathname) : Prop := q.isAbsolute = true ∧ ∃ s, q = .ofString s

theorem IsRooted.join {q : Pathname} (hq : q.IsRooted) (text : String) :
    (q.join (.ofString text)).IsRooted := by
  obtain ⟨hroot, s, rfl⟩ := hq
  have hstart : (Text.bytes s).head? = some 47 := by simpa [isAbsolute, ofString] using hroot
  obtain ⟨rest, hrest⟩ := List.head?_eq_some_iff.mp hstart
  have hslash : Text.bytes "/" = [47] := by decide
  unfold Pathname.join
  split
  · next habsolute => exact ⟨habsolute, text, rfl⟩
  · split
    · refine ⟨?_, s ++ text, ?_⟩
      · simp [isAbsolute, ofString, hrest]
      · rw [ofString, ofString, ofString, Text.bytes_append]
    · refine ⟨?_, s ++ ("/" ++ text), ?_⟩
      · simp [isAbsolute, ofString, hrest]
      · rw [ofString, ofString, ofString, Text.bytes_append, Text.bytes_append, hslash]
        rfl

theorem isRooted_root : (⟨[47]⟩ : Pathname).IsRooted := ⟨rfl, "/", by decide⟩

theorem segments_ofString (s : String) :
    (ofString s).segments = (MemberKey.segments s).map Text.bytes := by
  have hpieces := Text.pieces_bytes s.toList
  rw [String.ofList_toList] at hpieces
  rw [segments, ofString, hpieces, MemberKey.segments, List.map_map]
  rfl

/-- The path before the last step is the root or some of the first segments. -/
theorem parent_cases {p q : Pathname} (h : p.parent = some q) :
    q = ⟨[47]⟩ ∨ ∃ l, l <+: p.segments ∧ q = ⟨Text.joined 47 l⟩ := by
  unfold parent at h
  split at h
  · cases h
  · next first rest hsegments =>
    rw [hsegments]
    simp only at h
    split at h
    · split at h
      · cases h
      · cases h
        exact Or.inr ⟨[], List.nil_prefix, rfl⟩
    · split at h
      · cases h
        exact Or.inl rfl
      · cases h
        have hpre := (trimmed_isStart (trimmed rest).dropLast).trans (List.dropLast_prefix _)
        exact Or.inr ⟨_, (List.prefix_cons_inj first).mpr (hpre.trans (trimmed_isStart rest)), rfl⟩

/-- Some of the first segments of a text are a text. -/
theorem exists_ofString_joined {s : String} {l : List Filename} (h : l <+: (ofString s).segments) :
    ∃ t, (⟨Text.joined 47 l⟩ : Pathname) = ofString t := by
  rw [segments_ofString] at h
  have hl := List.prefix_iff_eq_take.mp h
  rw [← List.map_take] at hl
  generalize (MemberKey.segments s).take l.length = ts at hl
  refine ⟨String.ofList (Text.joined '/' (ts.map String.toList)), ?_⟩
  rw [hl, ofString, Text.bytes_joined, List.map_map]
  congr 2
  exact List.map_congr_left fun t _ => congrArg Text.bytes String.ofList_toList.symm

theorem IsRooted.parent {p q : Pathname} (hp : p.IsRooted) (h : p.parent = some q) :
    q.IsRooted := by
  obtain ⟨hroot, s, rfl⟩ := hp
  refine ⟨(isAbsolute_parent h).trans hroot, ?_⟩
  rcases parent_cases h with rfl | ⟨l, hl, rfl⟩
  · exact isRooted_root.2
  · exact exists_ofString_joined hl

end Pathname

namespace MemberKey

/-- The step that a segment is. -/
def stepOf (s : String) : Component := if s = ".." then .up else .name (Text.bytes s)

theorem stepOf_injective {s t : String} (h : stepOf s = stepOf t) : s = t := by
  unfold stepOf at h
  split at h
  · next hs =>
    split at h
    · next ht => rw [hs, ht]
    · cases h
  · split at h
    · cases h
    · exact Text.bytes_inj (Component.name.inj h)

/-- A segment that says something. -/
def Says (s : String) : Prop := s ≠ "" ∧ s ≠ "."

instance (s : String) : Decidable (Says s) := inferInstanceAs (Decidable (_ ∧ _))

theorem not_says_iff {s : String} : ¬ Says s ↔ s = "" ∨ s = "." := by
  rw [Says, Decidable.not_and_iff_not_or_not, Decidable.not_not, Decidable.not_not]

theorem ofSegment?_bytes (s : String) :
    Component.ofSegment? (Text.bytes s) = if Says s then some (stepOf s) else none := by
  have hbytes : ∀ t : String, Text.bytes s = Text.bytes t ↔ s = t :=
    fun t => ⟨Text.bytes_inj, congrArg Text.bytes⟩
  have hempty : Text.bytes s = [] ↔ s = "" := hbytes ""
  have hdot : Text.bytes s = [46] ↔ s = "." := hbytes "."
  have hdots : Text.bytes s = [46, 46] ↔ s = ".." := hbytes ".."
  by_cases hs : Says s
  · have hkeep : ¬ (Text.bytes s = [] ∨ Text.bytes s = [46]) := by
      rw [hempty, hdot, not_or]
      exact hs
    rw [Component.ofSegment?, if_neg hkeep, if_pos hs, stepOf]
    simp only [hdots]
    split <;> rfl
  · have hskip : Text.bytes s = [] ∨ Text.bytes s = [46] := by
      rw [hempty, hdot]
      exact not_says_iff.mp hs
    rw [Component.ofSegment?, if_pos hskip, if_neg hs]

/-- Segments that say nothing are no steps. -/
theorem filterMap_ofSegment? (ss : List String) :
    (ss.map Text.bytes).filterMap Component.ofSegment? = (ss.filter Says).map stepOf := by
  induction ss with
  | nil => rfl
  | cons s ss ih =>
    by_cases hs : Says s <;> simp [ofSegment?_bytes, hs, ih]

/-- Nor do they change what the others fold into. -/
theorem foldl_push_filter (ss : List String) (names : MemberKey) :
    (ss.filter Says).foldl push names = ss.foldl push names := by
  induction ss generalizing names with
  | nil => rfl
  | cons s ss ih =>
    by_cases hs : Says s
    · rw [List.filter_cons_of_pos (by simpa using hs), List.foldl_cons, List.foldl_cons, ih]
    · have hskip : push names s = names := if_pos (not_says_iff.mp hs)
      rw [List.filter_cons_of_neg (by simpa using hs), List.foldl_cons, hskip, ih]

/-- The steps of a rooted path are the root and the segments that say something, and those fold into
the key it names. -/
theorem exists_steps {q : Pathname} (hq : q.IsRooted) : ∃ ss : List String,
    (∀ s ∈ ss, Says s ∧ '/' ∉ s.toList) ∧ q.components = .root :: ss.map stepOf ∧
      ofPathname q = ss.foldl push [] := by
  obtain ⟨hroot, s, rfl⟩ := hq
  obtain ⟨rest, hrest⟩ := List.head?_eq_some_iff.mp (beq_iff_eq.mp hroot)
  have hsegments := Pathname.segments_ofString s
  have hsplit : (Pathname.ofString s).bytes = [] ++ 47 :: rest := hrest
  obtain ⟨a, ss, hss⟩ := List.exists_cons_of_ne_nil fun hnil : segments s = [] =>
    Text.pieces_ne_nil 47 _ (hsegments.trans (congrArg (List.map Text.bytes) hnil))
  have hfirst : a = "" := by
    rw [Pathname.segments, hsplit, Text.pieces_append_sep, hss] at hsegments
    have hempty : Text.bytes "" = Text.bytes a := (List.cons.inj hsegments).1
    exact (Text.bytes_inj hempty).symm
  subst hfirst
  refine ⟨ss.filter Says, ?_, ?_, ?_⟩
  · intro t ht
    obtain ⟨hmem, hspeaks⟩ := List.mem_filter.mp ht
    refine ⟨of_decide_eq_true hspeaks, slash_notMem_segments (t := s) ?_⟩
    rw [hss]
    exact List.mem_cons_of_mem _ hmem
  · rw [Pathname.components, Pathname.segments_ofString, hss, ← filterMap_ofSegment?]
    change (Pathname.ofString s).firstComponent [] ++ _ = _
    rw [Pathname.firstComponent, if_pos rfl, if_pos hroot]
    rfl
  · rw [ofPathname, Pathname.display_ofString, ofText, hss, foldl_push_filter]
    rfl

/-- Paths with the same steps name the same key. -/
theorem ofPathname_congr {q r : Pathname} (hq : q.IsRooted) (hr : r.IsRooted)
    (h : q.components = r.components) : ofPathname q = ofPathname r := by
  obtain ⟨ss, -, hss, hqkey⟩ := exists_steps hq
  obtain ⟨ts, -, hts, hrkey⟩ := exists_steps hr
  rw [hss, hts, List.cons.injEq] at h
  have hsame : ss = ts := List.map_inj_right (fun _ _ => stepOf_injective) |>.mp h.2
  rw [hqkey, hrkey, hsame]

/-- A path that never goes up has the steps of the key it names. -/
theorem components_of_rooted {q : Pathname} (hq : q.IsRooted) (hup : .up ∉ q.components) :
    q.components = .root :: (ofPathname q).filenames.map .name := by
  obtain ⟨ss, hnames, hss, hkey⟩ := exists_steps hq
  have hstraight : ∀ s ∈ ss, s ≠ ".." := by
    rintro s hs rfl
    rw [hss] at hup
    exact hup (List.mem_cons_of_mem _ (List.mem_map_of_mem (f := stepOf) hs))
  have hcanonical : Canonical ss :=
    fun s hs => ⟨(hnames s hs).1.1, (hnames s hs).1.2, hstraight s hs, (hnames s hs).2⟩
  rw [hkey, foldl_push_of_canonical [] hcanonical, List.nil_append, hss, filenames, List.map_map]
  congr 1
  exact List.map_congr_left fun s hs => if_neg (hstraight s hs)

end MemberKey

end ZipMount
