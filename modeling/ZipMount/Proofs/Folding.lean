import Mathlib.Data.List.TakeWhile
import ZipMount.Path
import ZipMount.Proofs.MemberKey

namespace ZipMount.MemberKey

/-- The parts of a text between its slashes; an empty text has none. -/
def parts (text : String) : List String := if text = "" then [] else segments text

theorem parts_text {k : MemberKey} (hk : Canonical k) : parts k.text = k := by
  rw [parts]
  split
  · next h => exact (eq_nil_of_text hk h).symm
  · next h =>
    refine segments_text ?_ hk
    rintro rfl
    exact h rfl

theorem text_parts (t : String) : text (parts t) = t := by
  rw [parts]
  split
  · next h => exact h.symm
  · rw [text, segments, List.map_map]
    have hlist : String.toList ∘ String.ofList = id := funext fun _ => String.toList_ofList
    rw [hlist, List.map_id, Text.joined_pieces, String.ofList_toList]

theorem beforeLastSlash_append (a : String) {s : String} (hs : '/' ∉ s.toList) :
    beforeLastSlash (a ++ "/" ++ s) = a := by
  have hreverse : (a ++ "/" ++ s).toList.reverse = s.toList.reverse ++ '/' :: a.toList.reverse := by
    simp
  have hpass : ∀ c ∈ s.toList.reverse, decide (c ≠ '/') = true := by
    intro c hc
    rw [decide_eq_true_eq]
    rintro rfl
    exact hs (List.mem_reverse.mp hc)
  rw [beforeLastSlash, hreverse, List.dropWhile_append_of_pos hpass]
  simp

theorem beforeLastSlash_of_notMem {s : String} (hs : '/' ∉ s.toList) : beforeLastSlash s = "" := by
  have hpass : ∀ c ∈ s.toList.reverse, decide (c ≠ '/') = true := by
    intro c hc
    rw [decide_eq_true_eq]
    rintro rfl
    exact hs (List.mem_reverse.mp hc)
  have hnone := List.dropWhile_eq_nil_iff.mpr hpass
  rw [beforeLastSlash, hnone]
  rfl

/-- A text that folding leaves as it is, because it is made of names with slashes between them. -/
structure Folded (t : String) : Prop where
  names : ∀ s ∈ parts t, IsName s
  bare : Bare t.toList
  text_ofText : (ofText t).text = t
  text_ofText_slash : (ofText ("/" ++ t)).text = t

theorem folded_text {k : MemberKey} (hk : Canonical k) : Folded k.text where
  names := by
    rw [parts_text hk]
    exact hk
  bare := text_bare hk
  text_ofText := congrArg text (ofText_text hk)
  text_ofText_slash := by rw [ofText_slash_append, ofText_text hk]

theorem folded_iff {t : String} : Folded t ↔ ∃ k, Canonical k ∧ k.text = t := by
  constructor
  · intro h
    exact ⟨parts t, h.names, text_parts t⟩
  · rintro ⟨k, hk, rfl⟩
    exact folded_text hk

/-- What a key is to the key above it. -/
structure Extends (k above : MemberKey) : Prop where
  canonical : Canonical above
  shorter : above.text.length < k.text.length
  text_eq : above.text = beforeLastSlash k.text
  one_name : ∃ s, IsName s ∧ k = above ++ [s] ∧
    k.text = if above = [] then s else above.text ++ "/" ++ s

theorem extends_concat {above : MemberKey} {s : String} (h : Canonical above) (hs : IsName s) :
    Extends (above ++ [s]) above := by
  have hne : s ≠ "" := hs.1
  have hslash : '/' ∉ s.toList := hs.2.2.2
  have hlength : 0 < s.length := by
    rw [← String.length_toList]
    exact List.length_pos_iff.mpr fun hnil => hne (String.toList_eq_nil_iff.mp hnil)
  by_cases hnil : above = []
  · subst hnil
    have htext : text ([] ++ [s]) = s := text_singleton s
    refine ⟨h, ?_, ?_, s, hs, rfl, htext⟩
    · rw [htext]
      exact hlength
    · rw [htext, beforeLastSlash_of_notMem hslash]
      rfl
  · have htext := text_concat hnil s
    refine ⟨h, ?_, ?_, s, hs, rfl, ?_⟩
    · rw [htext, String.length_append, String.length_append]
      omega
    · rw [htext, beforeLastSlash_append _ hslash]
    · rw [htext, if_neg hnil]

theorem extends_parent {k : MemberKey} (hk : Canonical k) (hne : k ≠ []) :
    Extends k (parent k) := by
  have hsplit : parent k ++ [k.getLast hne] = k := List.dropLast_concat_getLast hne
  have hext := extends_concat (canonical_parent hk) (hk _ (List.getLast_mem hne))
  rw [hsplit] at hext
  exact hext

/-- A text taken from another goes on from the key of the other. -/
theorem ofPathname_join (p : String) {q : String} (hq : (Pathname.ofString q).isAbsolute = false) :
    ofPathname ((Pathname.ofString p).join (.ofString q)) = (segments q).foldl push (ofText p) := by
  have hslash : Text.bytes "/" = [47] := by decide
  have hends : ∀ a : String, ofText (a ++ "/" ++ q) = (segments q).foldl push (ofText a) := by
    intro a
    rw [ofText, segments_append_slash, List.foldl_append]
    rfl
  rw [Pathname.join, if_neg (by rw [hq]; exact Bool.false_ne_true)]
  split
  · next hend =>
    have hjoin : (⟨(Pathname.ofString p).bytes ++ (Pathname.ofString q).bytes⟩ : Pathname) =
        .ofString (p ++ q) := by
      rw [Pathname.ofString, Pathname.ofString, Pathname.ofString, Text.bytes_append]
    rw [hjoin, ofPathname, Pathname.display_ofString]
    rcases hend with hempty | hend
    · have hp : p = "" := Text.bytes_inj hempty
      subst hp
      rw [String.empty_append]
      rfl
    · -- the slash at the end of `p` is the one between the two
      obtain ⟨cs, hcs⟩ := List.getLast?_eq_some_iff.mp (Text.getLast?_of_bytes hend)
      have hp : p = String.ofList cs ++ "/" := by
        apply String.toList_inj.mp
        rw [hcs]
        simp
      rw [hp, hends, ofText_append_slash]
  · have hjoin : (⟨(Pathname.ofString p).bytes ++ 47 :: (Pathname.ofString q).bytes⟩ : Pathname) =
        .ofString (p ++ "/" ++ q) := by
      rw [Pathname.ofString, Pathname.ofString, Pathname.ofString, Text.bytes_append,
        Text.bytes_append, hslash, List.append_assoc]
      rfl
    rw [hjoin, ofPathname, Pathname.display_ofString, hends]

/-- A text taken from another names the same member whether or not the other was folded before. -/
theorem ofPathname_join_text (p q : String) :
    ofPathname ((Pathname.ofString (ofText p).text).join (.ofString q)) =
      ofPathname ((Pathname.ofString p).join (.ofString q)) := by
  cases hq : (Pathname.ofString q).isAbsolute with
  | true => rw [Pathname.join, Pathname.join, if_pos hq, if_pos hq]
  | false => rw [ofPathname_join _ hq, ofPathname_join _ hq, ofText_text (canonical_ofText p)]

/-- A path of an archive leads to the same member when a text is taken from it, whether or not the
text of the path was folded before. -/
theorem ofPathname_resolve_text (id : MountId) (p q : String) :
    ofPathname (((FileSystem.archive id).path (ofText p).text).resolve q).pathname =
      ofPathname (((FileSystem.archive id).path p).resolve q).pathname := by
  change ofPathname ((Pathname.join ⟨[47]⟩ (.ofString (ofText p).text)).join (.ofString q)) =
    ofPathname ((Pathname.join ⟨[47]⟩ (.ofString p)).join (.ofString q))
  have hkey : ∀ s : String, ∃ t, Pathname.join ⟨[47]⟩ (.ofString s) = .ofString t ∧
      ofText t = ofText s := by
    intro s
    have hroot := ofPathname_join_root s
    rw [join_root, ofPathname, Pathname.display_ofString] at hroot
    exact ⟨_, join_root s, hroot⟩
  obtain ⟨s, hs, hsp⟩ := hkey p
  obtain ⟨t, ht, htp⟩ := hkey (ofText p).text
  rw [hs, ht, ← ofPathname_join_text s, ← ofPathname_join_text t, hsp, htp,
    ofText_text (canonical_ofText p)]

/-- Any text folds into one that is made of names and that folding leaves as it is, with or without
a slash before it. A relative text that is taken from another leads to the same member whether or
not the other is folded before; an absolute text leads where it leads by itself. The folded texts
are those of the keys made of names, and such a key has one name more than the key above it, whose
text is what comes before the last slash. -/
theorem ofText_folds :
    (∀ p, Folded (ofText p).text) ∧
    (∀ p q, (Pathname.ofString q).isAbsolute = false →
      ofPathname ((Pathname.ofString p).join (.ofString q)) =
        ofPathname ((Pathname.ofString (ofText p).text).join (.ofString q))) ∧
    (∀ p q, (Pathname.ofString q).isAbsolute = true →
      ofPathname ((Pathname.ofString p).join (.ofString q)) = ofText q) ∧
    (∀ id p q, ofPathname (((FileSystem.archive id).path p).resolve q).pathname =
      ofPathname (((FileSystem.archive id).path (ofText p).text).resolve q).pathname) ∧
    (∀ t, Folded t ↔ ∃ k, Canonical k ∧ k.text = t) ∧
    ∀ k, Canonical k → k ≠ [] → Extends k (parent k) := by
  refine ⟨fun p => folded_text (canonical_ofText p), ?_, ?_, ?_, fun _ => folded_iff, ?_⟩
  · exact fun p q _ => (ofPathname_join_text p q).symm
  · intro p q hq
    rw [Pathname.join, if_pos hq, ofPathname, Pathname.display_ofString]
  · exact fun id p q => (ofPathname_resolve_text id p q).symm
  · exact fun k => extends_parent

theorem ofText_folds_climbing :
    ((Pathname.ofString "b//../c").isAbsolute = false ∧ (Pathname.ofString "/x").isAbsolute = true ∧
      ofText "../a/./b/.." = ["a"]) ∧
    ofPathname ((Pathname.ofString "../a/./b/..").join (.ofString "b//../c")) =
      ofPathname ((Pathname.ofString "a").join (.ofString "b//../c")) ∧
    ofPathname ((Pathname.ofString "../a/./b/..").join (.ofString "/x")) = ofText "/x" ∧
    Canonical ["a", "c"] ∧ Extends ["a", "c"] ["a"] := by
  have hrelative : (Pathname.ofString "b//../c").isAbsolute = false := by decide
  have habsolute : (Pathname.ofString "/x").isAbsolute = true := by decide
  have hkey : ofText "../a/./b/.." = ["a"] := by decide
  have hcanonical : Canonical ["a", "c"] := by decide
  obtain ⟨-, hjoin, hreplace, -, -, hparent⟩ := ofText_folds
  have hfolded := hjoin "../a/./b/.." _ hrelative
  rw [hkey] at hfolded
  exact ⟨⟨hrelative, habsolute, hkey⟩, hfolded, hreplace _ _ habsolute, hcanonical,
    hparent _ hcanonical (by decide)⟩

end ZipMount.MemberKey
