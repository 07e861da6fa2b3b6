import ZipMount.Archives.Copy
import ZipMount.Proofs.MemberPath

namespace ZipMount

namespace MemberKey

variable {k r : MemberKey}

/-- A key's text ends in a backslash only if its last name does. -/
theorem getLast?_of_text {init : MemberKey} {s : String}
    (h : (text (init ++ [s])).toList.getLast? = some '\\') : s.toList.getLast? = some '\\' := by
  by_cases hnil : init = []
  · subst hnil
    rw [List.nil_append, text_singleton] at h
    exact h
  · have htext : (text (init ++ [s])).toList = init.text.toList ++ '/' :: s.toList := by
      rw [text_concat hnil]
      simp
    rw [htext, List.getLast?_append, List.getLast?_cons] at h
    cases hs : s.toList.getLast? with
    | none =>
      rw [hs] at h
      cases h
    | some c =>
      rw [hs] at h
      exact h

theorem intercalate_eq_text (r : MemberKey) : String.intercalate "/" r = r.text := by
  induction r with
  | nil => rfl
  | cons s r ih =>
    cases r with
    | nil => exact (text_singleton s).symm
    | cons t r =>
      rw [String.intercalate_cons_cons, ih, text_cons (List.cons_ne_nil t r), String.append_assoc]

/-- The steps that are the names of a key are written as the key is. -/
theorem stepsText_filenames (r : MemberKey) : Pathname.stepsText (r.filenames.map .name) = r.text := by
  have hmap : (r.filenames.map Component.name).map (fun c => Text.lossy c.bytes) = r := by
    rw [filenames, List.map_map, List.map_map]
    conv => rhs; rw [← List.map_id r]
    exact List.map_congr_left fun s _ => Text.lossy_bytes s
  rw [Pathname.stepsText, hmap, intercalate_eq_text]

/-- A key of names is not written with a slash at its start. -/
theorem head?_bytes_text (hr : Canonical r) : (Text.bytes r.text).head? ≠ some 47 := by
  cases r with
  | nil => decide
  | cons s r =>
    have hs : IsSegment (Text.bytes s) := isSegment_of_mem hr _ List.mem_cons_self
    have hstart : ∃ rest, Text.bytes (text (s :: r)) = Text.bytes s ++ rest := by
      by_cases hnil : r = []
      · subst hnil
        exact ⟨[], by rw [text_singleton, List.append_nil]⟩
      · exact ⟨_, by rw [text_cons hnil, Text.bytes_append]⟩
    obtain ⟨rest, hrest⟩ := hstart
    obtain ⟨b, bs, hb⟩ := List.exists_cons_of_ne_nil hs.1
    rw [hrest, hb]
    intro h
    cases h
    exact hs.2.2.2 (hb ▸ List.mem_cons_self)

end MemberKey

namespace Pathname

open MemberKey

theorem under_append (p : Pathname) (ms ns : List Filename) :
    p.under (ms ++ ns) = (p.under ms).under ns := List.foldl_append

theorem join_of_relative (p : Pathname) {q : Pathname} (hq : q.bytes.head? ≠ some 47) :
    p.join q = if p.bytes = [] ∨ p.bytes.getLast? = some 47 then ⟨p.bytes ++ q.bytes⟩
      else ⟨p.bytes ++ 47 :: q.bytes⟩ := by
  have hrelative : q.isAbsolute = false := by
    rw [isAbsolute, beq_eq_false_iff_ne]
    exact hq
  rw [join, hrelative, if_neg Bool.false_ne_true]

/-- What starts with a name is taken from a path by taking the name from it first. -/
theorem join_cons (p : Pathname) {n rest : Filename} (hn : IsSegment n)
    (hrest : rest.head? ≠ some 47) : p.join ⟨n ++ 47 :: rest⟩ = (p.join ⟨n⟩).join ⟨rest⟩ := by
  obtain ⟨b, bs, hb⟩ := List.exists_cons_of_ne_nil hn.1
  have hhead : ∀ xs : List UInt8, (n ++ xs).head? ≠ some 47 := by
    intro xs h
    rw [hb] at h
    cases h
    exact hn.2.2.2 (hb ▸ List.mem_cons_self)
  have hname : n.head? ≠ some 47 := by
    rw [← List.append_nil n]
    exact hhead []
  -- a path that ends in the name neither is empty nor ends in a slash
  have hput : ∀ xs : List UInt8, (⟨xs ++ n⟩ : Pathname).join ⟨rest⟩ = ⟨xs ++ (n ++ 47 :: rest)⟩ := by
    intro xs
    have hne : ¬ (xs ++ n = [] ∨ (xs ++ n).getLast? = some 47) := by
      rintro (h | h)
      · exact hn.1 (List.append_eq_nil_iff.mp h).2
      · rw [List.getLast?_append, List.getLast?_eq_some_getLast hn.1, Option.some_or,
          Option.some.injEq] at h
        exact hn.2.2.2 (h ▸ List.getLast_mem hn.1)
    rw [join_of_relative _ hrest, if_neg hne, List.append_assoc]
  rw [join_of_relative p (hhead _), join_of_relative p hname]
  split
  · rw [hput]
  · have hassoc : p.bytes ++ 47 :: n = (p.bytes ++ [47]) ++ n := by simp
    rw [hassoc, hput, List.append_assoc]
    rfl

/-- Taking the text of a key from a path is putting its names to the path one by one. -/
theorem join_text (p : Pathname) {r : MemberKey} (hr : Canonical r) (hne : r ≠ []) :
    p.join (.ofString r.text) = p.under r.filenames := by
  induction r generalizing p with
  | nil => exact absurd rfl hne
  | cons s r ih =>
    have hs : IsSegment (Text.bytes s) := isSegment_of_mem hr _ List.mem_cons_self
    have hrest : Canonical r := fun t ht => hr t (List.mem_cons_of_mem s ht)
    by_cases hnil : r = []
    · subst hnil
      rw [text_singleton]
      rfl
    · have hbytes : Pathname.ofString (MemberKey.text (s :: r)) =
          ⟨Text.bytes s ++ 47 :: Text.bytes (MemberKey.text r)⟩ := by
        have hslash : Text.bytes "/" = [47] := by decide
        rw [ofString, text_cons hnil, Text.bytes_append, Text.bytes_append, hslash]
        rfl
      rw [hbytes, join_cons p hs (head?_bytes_text hrest)]
      exact ih (p.join ⟨Text.bytes s⟩) hrest hnil

/-- A path is no shorter for names that are put to it than their text is. -/
theorem length_text_le (p : Pathname) {r : MemberKey} (hr : Canonical r) :
    (Text.bytes r.text).length ≤ (p.under r.filenames).bytes.length := by
  by_cases hne : r = []
  · subst hne
    exact Nat.zero_le _
  · rw [← join_text p hr hne, join_of_relative p (head?_bytes_text hr)]
    split
    · exact (List.sublist_append_right p.bytes _).length_le
    · exact ((List.sublist_cons_self 47 _).trans (List.sublist_append_right p.bytes _)).length_le

end Pathname

namespace MemberKey

variable {j k r : MemberKey}

/-- The path of a key is that of its names from the root. -/
theorem pathname_eq_under (hk : Canonical k) : k.pathname = Pathname.under ⟨[47]⟩ k.filenames := by
  by_cases hne : k = []
  · subst hne
    decide
  · have hroot : (⟨[47]⟩ : Pathname).join (.ofString k.text) = k.pathname := by
      have hslash : Text.bytes "/" = [47] := by decide
      have hends : ([47] : List UInt8) = [] ∨ ([47] : List UInt8).getLast? = some 47 := Or.inr rfl
      rw [Pathname.join_of_relative _ (head?_bytes_text hk), if_pos hends, pathname,
        Pathname.ofString, Pathname.ofString, Text.bytes_append, hslash]
    rw [← hroot, Pathname.join_text _ hk hne]

theorem pathname_append (hj : Canonical j) (hr : Canonical r) :
    pathname (j ++ r) = j.pathname.under r.filenames := by
  rw [pathname_eq_under (canonical_append hj hr), filenames_append, Pathname.under_append,
    ← pathname_eq_under hj]

end MemberKey

namespace Archives

open MemberKey

variable {i j : MountId} {s t r : MemberKey}

/-- What is left of the path of a member when a path before it is taken off. -/
theorem relativeTo_ofKey (hs : Canonical s) (hr : Canonical r) :
    (Path.ofKey i (s ++ r)).relativeTo (.ofKey i s) = .ok r.text := by
  have hrelative : (pathname (s ++ r)).relativeTo? s.pathname = some (r.filenames.map .name) := by
    rw [pathname_append hs hr]
    exact Pathname.relativeTo?_under (pathname_ne_nil s) (isSegment_of_mem hr)
  have hpaths : (Path.ofKey i (s ++ r)).pathname.relativeTo? (Path.ofKey i s).pathname =
      some (r.filenames.map .name) := hrelative
  rw [Path.relativeTo, hpaths]
  exact congrArg Except.ok (stepsText_filenames r)

/-- What is left of a path when the source is taken off says where it is copied to. -/
theorem destination_of_relativeTo (hr : Canonical r) {source p : Path}
    (h : p.relativeTo source = .ok r.text) (target : Path) :
    destination source target p = .ok (if r = [] then target else target.resolve r.text) := by
  unfold destination
  rw [h]
  have hempty : r.text = "" ↔ r = [] := by
    constructor
    · exact eq_nil_of_text hr
    · rintro rfl
      rfl
  change Except.ok (if r.text = "" then target else target.resolve r.text) = _
  simp only [hempty]

/-- Where a member beneath a source is copied to. -/
theorem destination_eq (hs : Canonical s) (hr : Canonical r) (target : Path) :
    destination (.ofKey i s) target (.ofKey i (s ++ r)) =
      .ok (if r = [] then target else target.resolve r.text) :=
  destination_of_relativeTo hr (relativeTo_ofKey hs hr) target

/-- In another archive it goes to the same names beneath the target's. -/
theorem destination_member (hs : Canonical s) (ht : Canonical t) (hr : Canonical r) :
    destination (.ofKey i s) (.ofKey j t) (.ofKey i (s ++ r)) = .ok (.ofKey j (t ++ r)) := by
  rw [destination_eq hs hr]
  by_cases hne : r = []
  · rw [if_pos hne, hne, List.append_nil]
  · rw [if_neg hne, Path.ofKey, Path.ofKey, Path.resolve, Pathname.join_text _ hr hne,
      pathname_append ht hr]

/-- On the host it goes to the same names beneath the target. -/
theorem destination_host (hs : Canonical s) (hr : Canonical r) (p : Pathname) :
    destination (.ofKey i s) (.host p) (.ofKey i (s ++ r)) = .ok (.host (p.under r.filenames)) := by
  rw [destination_eq hs hr]
  by_cases hne : r = []
  · rw [if_pos hne, hne]
    rfl
  · rw [if_neg hne, Path.resolve, Pathname.join_text _ hr hne]

/-- From the host it goes to the same names beneath the root of an archive. -/
theorem destination_root {p : Pathname} (hp : p.bytes ≠ []) (hr : Canonical r) :
    destination (.host p) (.ofKey j []) (.host (p.under r.filenames)) = .ok (.ofKey j r) := by
  have hpaths : (Path.host (p.under r.filenames)).pathname.relativeTo? (Path.host p).pathname =
      some (r.filenames.map .name) := Pathname.relativeTo?_under hp (isSegment_of_mem hr)
  have hrelative : (Path.host (p.under r.filenames)).relativeTo (.host p) = .ok r.text := by
    rw [Path.relativeTo, hpaths]
    exact congrArg Except.ok (stepsText_filenames r)
  unfold destination
  rw [hrelative]
  change Except.ok (if r.text = "" then _ else _) = _
  by_cases hne : r = []
  · subst hne
    rfl
  · have htext : ¬ r.text = "" := fun h => hne (eq_nil_of_text hr h)
    have hpathname : r.pathname = (pathname []).under r.filenames :=
      pathname_append canonical_nil hr
    rw [if_neg htext, Path.ofKey, Path.ofKey, Path.resolve, Pathname.join_text _ hr hne, hpathname]

end Archives

end ZipMount
